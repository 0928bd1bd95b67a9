import PathQuery.Json.Basic
import PathQuery.Json.Fault
import PathQuery.Number.Numeral

/-!
# Lexemes of JSON text

JSON text as strings, numbers, words and punctuation, each with its offset in bytes.
A string, number or word with a fault ends the list, since no reader gets past it.
-/

namespace PathQuery.Json

open Number

inductive Lexeme
  | arrayStart
  | arrayEnd
  | objectStart
  | objectEnd
  | comma
  | colon
  | string (text : String)
  /-- A number or a word. -/
  | leaf (value : Json)
  /-- A string with a fault. -/
  | badString (fault : Fault)
  /-- A number or a word with a fault. -/
  | badLeaf (fault : Fault)
  /-- A character that starts nothing. -/
  | stray

/-! ## Strings -/

/-- Where a reader stands in a string. -/
inductive StringState
  | plain
  /-- Behind a backslash. -/
  | escaped
  /-- In the number of a character: the digits left, the value so far, and the leading surrogate
  before it if there is one. -/
  | hex (left value : Nat) (lead : Option Nat)
  /-- Behind a leading surrogate. -/
  | afterLead (lead : Nat)
  /-- Behind a leading surrogate and a backslash. -/
  | afterLeadSlash (lead : Nat)

def escapeOf? : Char → Option Char
  | '"' => some '"'
  | '\\' => some '\\'
  | '/' => some '/'
  | 'b' => some '\x08'
  | 'f' => some '\x0c'
  | 'n' => some '\n'
  | 'r' => some '\r'
  | 't' => some '\t'
  | _ => none

/-- The value of a hexadecimal digit of either case. -/
def hexValue? (c : Char) : Option Nat :=
  if '0' ≤ c && c ≤ '9' then some (c.toNat - '0'.toNat)
  else if 'a' ≤ c && c ≤ 'f' then some (c.toNat - 'a'.toNat + 10)
  else if 'A' ≤ c && c ≤ 'F' then some (c.toNat - 'A'.toNat + 10)
  else none

def isLead (n : Nat) : Bool := 0xD800 ≤ n && n ≤ 0xDBFF

def isTrail (n : Nat) : Bool := 0xDC00 ≤ n && n ≤ 0xDFFF

/-- The fault of four digits one of which is none: they are read together, and a text that ends
before the fourth byte is at fault at its end. -/
def hexFault (offset read : Nat) (rest : List Char) : Fault :=
  if 4 ≤ read + byteSize rest then ⟨.badEscape, offset - read + 4⟩
  else ⟨.endInString, offset + byteSize rest⟩

/-- Reads a string behind its opening quote up to and with its closing quote: its characters, in
reverse with those before them, and the number of characters read. -/
def scanString : StringState → (offset read : Nat) → (done : List Char) → List Char →
    Except Fault (List Char × Nat)
  | .hex left _ _, offset, _, _, [] => .error (hexFault offset (4 - left) [])
  | _, offset, _, _, [] => .error ⟨.endInString, offset⟩
  | .plain, offset, read, done, c :: rest =>
    if c == '"' then .ok (done, read + 1)
    else if c == '\\' then scanString .escaped (offset + 1) (read + 1) done rest
    else if c < ' ' then .error ⟨.controlCharacter, offset + 1⟩
    else scanString .plain (offset + c.utf8Size) (read + 1) (c :: done) rest
  | .escaped, offset, read, done, c :: rest =>
    if c == 'u' then scanString (.hex 4 0 none) (offset + 1) (read + 1) done rest
    else
      match escapeOf? c with
      | some x => scanString .plain (offset + 1) (read + 1) (x :: done) rest
      | none => .error ⟨.badEscape, offset + 1⟩
  | .hex left value lead, offset, read, done, c :: rest =>
    match hexValue? c with
    | none => .error (hexFault offset (4 - left) (c :: rest))
    | some digit =>
      let value := 16 * value + digit
      if 1 < left then scanString (.hex (left - 1) value lead) (offset + 1) (read + 1) done rest
      else
        match lead with
        | none =>
          if isTrail value then .error ⟨.loneSurrogate, offset + 1⟩
          else if isLead value then
            scanString (.afterLead value) (offset + 1) (read + 1) done rest
          else scanString .plain (offset + 1) (read + 1) (Char.ofNat value :: done) rest
        | some high =>
          if isTrail value then
            let c := Char.ofNat ((high - 0xD800) * 0x400 + (value - 0xDC00) + 0x10000)
            scanString .plain (offset + 1) (read + 1) (c :: done) rest
          else .error ⟨.loneSurrogate, offset + 1⟩
  | .afterLead lead, offset, read, done, c :: rest =>
    if c == '\\' then scanString (.afterLeadSlash lead) (offset + 1) (read + 1) done rest
    else .error ⟨.endInEscape, offset + 1⟩
  | .afterLeadSlash lead, offset, read, done, c :: rest =>
    if c == 'u' then scanString (.hex 4 0 (some lead)) (offset + 1) (read + 1) done rest
    else .error ⟨.endInEscape, offset + 1⟩

/-! ## Numbers -/

/-- The largest exponent that is read to its end. -/
def exponentLimit : Nat := 2147483647

/-- The number of digits up to and with the one that takes an exponent over the limit. -/
def overlongAt? (value read : Nat) : List Char → Option Nat
  | [] => none
  | c :: rest =>
    let value := 10 * value + (c.toNat - '0'.toNat)
    if exponentLimit < value then some (read + 1) else overlongAt? value (read + 1) rest

/-- A word with its sign: a signed word, an unsigned one, or else a double. Minus zero is a
double. -/
def whole (negative : Bool) (n : Nat) : Json :=
  if negative then
    if n = 0 then .float (.zero true)
    else if Int64.minValue.toInt ≤ -n then .integer (.ofInt (-n))
    else .float (.ofInt (-n))
  else if n ≤ Int64.maxValue.toInt then .integer (.ofInt n)
  else .unsigned (.ofNat n)

/-- The value of a number, unless it is too large. The numeral ends at `offset`, and the digits of
its exponent begin at `exponentOffset`. -/
def numberValue (numeral : Numeral) (exponentOffset offset : Nat) : Except Fault Json :=
  let x := numeral.toDouble
  let finite : Except Fault Json :=
    if x.isFinite then .ok (.float x) else .error ⟨.numberTooLarge, offset⟩
  match numeral.word?, numeral.exponent with
  | some n, _ => .ok (whole numeral.negative n)
  | none, none => finite
  | none, some (negative, digits) =>
    match overlongAt? 0 0 digits, negative || numeral.significand.1 = 0 with
    | some read, false => .error ⟨.numberTooLarge, exponentOffset + read⟩
    | _, _ => finite

/-- Reads the exponent of a number: the numeral with it, and the offsets where its digits begin and
where the number ends. -/
def scanExponent (numeral : Numeral) (offset : Nat) (text : List Char) :
    Except Fault (Numeral × Nat × Nat) :=
  match text with
  | c :: rest =>
    if c == 'e' || c == 'E' then
      let (negative, signs, rest) := match rest with
        | '-' :: rest => (true, 1, rest)
        | '+' :: rest => (false, 1, rest)
        | _ => (false, 0, rest)
      let start := offset + 1 + signs
      match rest.takeWhile Char.isDigit, rest with
      | [], [] => .error ⟨.endInValue, start⟩
      | [], _ => .error ⟨.badNumber, start + 1⟩
      | digits, _ =>
        .ok ({ numeral with exponent := some (negative, digits) }, start, start + digits.length)
    else .ok (numeral, offset, offset)
  | [] => .ok (numeral, offset, offset)

/-- Reads the fraction and the exponent of a number, with the same offsets. -/
def scanFraction (numeral : Numeral) (offset : Nat) (text : List Char) :
    Except Fault (Numeral × Nat × Nat) :=
  match text with
  | '.' :: rest =>
    match rest.takeWhile Char.isDigit, rest with
    | [], [] => .error ⟨.endInValue, offset + 1⟩
    | [], _ => .error ⟨.badNumber, offset + 2⟩
    | digits, _ =>
      scanExponent { numeral with fraction := some digits } (offset + 1 + digits.length)
        (rest.dropWhile Char.isDigit)
  | _ => scanExponent numeral offset text

/-- Reads a number: its value and the number of characters read, which are bytes. -/
def scanNumber (offset : Nat) (text : List Char) : Except Fault (Json × Nat) := do
  let (negative, rest) := match text with
    | '-' :: rest => (true, rest)
    | _ => (false, text)
  let start := offset + negative.toNat
  match rest.takeWhile Char.isDigit, rest with
  | [], [] => .error ⟨.endInValue, start⟩
  | [], _ => .error ⟨.badNumber, start + 1⟩
  | '0' :: _ :: _, _ => .error ⟨.badNumber, start + 2⟩
  | digits, _ =>
    let (numeral, exponentOffset, stop) ←
      scanFraction { negative, digits } (start + digits.length) (rest.dropWhile Char.isDigit)
    let value ← numberValue numeral exponentOffset stop
    return (value, stop - offset)

/-! ## Words -/

def scanWord (offset : Nat) : (letters text : List Char) → Except Fault Unit
  | [], _ => .ok ()
  | _, [] => .error ⟨.endInValue, offset⟩
  | letter :: letters, c :: rest =>
    if letter = c then scanWord (offset + 1) letters rest else .error ⟨.expectedWord, offset + 1⟩

/-! ## Lexemes -/

/-- The lexeme of a number or a word, and the number of characters behind its first. -/
def leafLexeme (result : Except Fault (Json × Nat)) : Lexeme × Nat :=
  match result with
  | .ok (value, read) => (.leaf value, read - 1)
  | .error fault => (.badLeaf fault, 0)

/-- The lexeme that starts with a character, and the number of characters that belong to it behind
the first. -/
def lexeme (offset : Nat) (c : Char) (rest : List Char) : Lexeme × Nat :=
  let word (letters : List Char) (value : Json) :=
    leafLexeme ((scanWord (offset + 1) letters rest).map fun _ => (value, letters.length + 1))
  match c with
  | '[' => (.arrayStart, 0)
  | ']' => (.arrayEnd, 0)
  | '{' => (.objectStart, 0)
  | '}' => (.objectEnd, 0)
  | ',' => (.comma, 0)
  | ':' => (.colon, 0)
  | '"' =>
    match scanString .plain (offset + 1) 0 [] rest with
    | .ok (done, read) => (.string (String.ofList done.reverse), read)
    | .error fault => (.badString fault, 0)
  | 'n' => word ['u', 'l', 'l'] .null
  | 't' => word ['r', 'u', 'e'] (.bool true)
  | 'f' => word ['a', 'l', 's', 'e'] (.bool false)
  | c => if c == '-' || c.isDigit then leafLexeme (scanNumber offset (c :: rest)) else (.stray, 0)

def isSpace (c : Char) : Bool := c == ' ' || c == '\t' || c == '\n' || c == '\r'

/-- The lexemes of a text with their offsets; the first `skip` characters belong to the lexeme
before them. -/
def lexemesFrom : (skip offset : Nat) → List Char → List (Nat × Lexeme)
  | _, _, [] => []
  | skip + 1, offset, c :: rest => lexemesFrom skip (offset + c.utf8Size) rest
  | 0, offset, c :: rest =>
    if isSpace c then lexemesFrom 0 (offset + 1) rest
    else
      match lexeme offset c rest with
      | (.badString fault, _) => [(offset, .badString fault)]
      | (.badLeaf fault, _) => [(offset, .badLeaf fault)]
      | (l, skip) => (offset, l) :: lexemesFrom skip (offset + c.utf8Size) rest

def lexemes (text : List Char) : List (Nat × Lexeme) := lexemesFrom 0 0 text

end PathQuery.Json
