import PathQuery.Flags

/-!
# Splitting path text

A path is split at slashes into segments, a segment at its first equals sign into
a key and a value, and the match flags are split off its end. In all three a
backslash takes the meaning from the character after it.
-/

namespace PathQuery.Path

/-! ## Segments -/

/-- Adds a character to the first text, or makes it the first. -/
def consHead (c : Char) : List (List Char) → List (List Char)
  | [] => [[c]]
  | text :: rest => (c :: text) :: rest

/-- The texts between the slashes of a path. An escaped slash stands for itself; other escapes
are kept for the reader of the text. A slash at the end starts no further text. -/
def segmentTexts : List Char → List (List Char)
  | [] => []
  | '/' :: rest => [] :: segmentTexts rest
  | '\\' :: '/' :: rest => consHead '/' (segmentTexts rest)
  | '\\' :: c :: rest => consHead '\\' (consHead c (segmentTexts rest))
  | c :: rest => consHead c (segmentTexts rest)

/-! ## Keys and values -/

/-- The text before the first equals sign, and the text after it if there is one. -/
def splitValue : List Char → List Char × Option (List Char)
  | [] => ([], none)
  | '=' :: rest => ([], some rest)
  | '\\' :: c :: rest => ('\\' :: c :: (splitValue rest).1, (splitValue rest).2)
  | c :: rest => (c :: (splitValue rest).1, (splitValue rest).2)

/-! ## Match flags -/

/-- The path before a final pair of slashes that only letters of flags follow, and those letters
if there is such a pair. -/
def splitFlags : List Char → List Char × Option (List Char)
  | [] => ([], none)
  | '\\' :: c :: rest => ('\\' :: c :: (splitFlags rest).1, (splitFlags rest).2)
  | '/' :: rest =>
    match rest with
    | '/' :: letters =>
      if letters.all Flags.isLetter then ([], some letters)
      else ('/' :: (splitFlags rest).1, (splitFlags rest).2)
    | _ => ('/' :: (splitFlags rest).1, (splitFlags rest).2)
  | c :: rest => (c :: (splitFlags rest).1, (splitFlags rest).2)

/-- The flags that letters stand for, others passed over, together with `base`. -/
def addFlags (base : Flags) (letters : List Char) : Flags :=
  letters.foldl (fun flags c => flags.union ((Flags.ofLetter? c).getD .empty)) base

/-- The match flags of a path, its base flags and those written at its end together, and the path
without them. Flags are unset only if there are none of either kind. -/
def flagsOf (path : List Char) (base : Option Flags) : Option Flags × List Char :=
  match splitFlags path with
  | (text, some letters) =>
    let flags := addFlags (base.getD .empty) letters
    (if flags.isEmpty && base.isNone then none else some flags, text)
  | (text, none) => (base, text)

end PathQuery.Path
