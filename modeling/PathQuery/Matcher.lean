import PathQuery.Path.Segment
import PathQuery.Pattern.Matching

/-!
# Matchers

A matcher is a compiled segment. It tests the entries of a node, or, if it is
recursive, all entries below the node in pre-order (`Matcher.hits`).
-/

namespace PathQuery

structure Matcher where
  /-- The pattern of the key; absent if any key will do. -/
  key : Option Pattern
  /-- The pattern of the value; absent if any value will do. -/
  value : Option Pattern
  /-- Whether the whole subtree is searched. -/
  recursive : Bool := false

/-- An entry that a matcher accepts. -/
structure Hit (α : Type) where
  /-- The node that holds the entry. -/
  holder : α
  key : Key
  node : α
  /-- The keys that lead from the node searched to the entry. -/
  path : List Key
  captures : List String
  /-- The keys that a recursive search went through. -/
  splat : Option (List Key)

namespace Matcher

/-! ## Compiling -/

section Compiling

variable [Regex.Engine]

/-- Compiles a token; empty text counts as absent. -/
def compileToken (token : Option Token) (flags : Option Flags) :
    Except CompileError (Option Pattern) :=
  match token with
  | none => .ok none
  | some (.text s) => if s = "" then .ok none else (Pattern.ofText s flags).map some
  | some token => (Pattern.ofToken (some token) flags).map some

def ofTokens (key value : Option Token) (flags : Option Flags) (recursive : Bool) :
    Except CompileError Matcher := do
  let key ← compileToken key flags
  let value ← compileToken value flags
  .ok ⟨key, value, recursive⟩

def ofSegment (segment : Segment) (flags : Option Flags) : Except CompileError Matcher :=
  ofTokens segment.key segment.value flags segment.recursive

/-- Compiles segments from left to right; each matcher goes with the mark of the last segment. -/
def ofSegments (flags : Option Flags) : List Segment → Except CompileError (List (Matcher × Bool))
  | [] => .ok []
  | segment :: rest => do
    let matcher ← ofSegment segment flags
    let matchers ← ofSegments flags rest
    .ok ((matcher, segment.last) :: matchers)

/-- Compiles a path, in which no flags are written. -/
def ofPath (path : List Char) (flags : Option Flags) : Except CompileError (List Matcher) :=
  (ofSegments flags (Segment.ofPath path)).map (·.map Prod.fst)

/-- Compiles a path and shows its matchers, each with the mark of the last segment, to a visitor
one after the other. The visitor starts from `state`, and is not called if a segment does not
compile. -/
def ofPathEach {σ : Type} (path : List Char) (flags : Option Flags)
    (visit : σ → Matcher → Bool → σ) (state : σ) : σ × Except CompileError Unit :=
  match ofSegments flags (Segment.ofPath path) with
  | .ok matchers => (matchers.foldl (fun state shown => visit state shown.1 shown.2) state, .ok ())
  | .error error => (state, .error error)

end Compiling

/-! ## Comparing -/

def samePattern : Option Pattern → Option Pattern → Bool
  | none, none => true
  | some p, some q => p.same q
  | _, _ => false

def same (a b : Matcher) : Bool :=
  samePattern a.key b.key && samePattern a.value b.value && a.recursive == b.recursive

/-! ## Testing -/

def isParent (m : Matcher) : Bool := m.key.any Pattern.isParent

def test (pattern : Option Pattern) (subject : Subject) : Option (List String) :=
  match pattern with
  | some p => p.captures? subject
  | none => some []

variable {α : Type} [Tree α]

def matchValue (m : Matcher) (node : α) : Option (List String) :=
  test m.value (Subject.ofNode node)

/-- Tests an entry and gives the captures of its key and then those of its value. -/
def matchEntry (m : Matcher) (key : Key) (node : α) : Option (List String) := do
  let ofKey ← test m.key (.key key)
  let ofValue ← m.matchValue node
  return ofKey ++ ofValue

/-- The hit that a visit of a recursive search is, if the matcher accepts the entry. Without a
pattern for the key, the search went through the key as well. -/
def hitOfVisit (m : Matcher) (visit : Tree.Visit α) : Option (Hit α) :=
  (m.matchEntry visit.key visit.node).map fun captures =>
    { holder := visit.holder
      key := visit.key
      node := visit.node
      path := visit.path
      captures
      splat := some (if m.key.isNone then visit.path else visit.descent) }

def search (m : Matcher) (node : α) : List (Hit α) := (Tree.below node).filterMap m.hitOfVisit

def scan (m : Matcher) (node : α) : List (Hit α) :=
  (Tree.entries node).filterMap fun (key, child) =>
    (m.matchEntry key child).map fun captures =>
      { holder := node, key, node := child, path := [key], captures, splat := none }

def hits (m : Matcher) (node : α) : List (Hit α) :=
  if m.recursive then m.search node else m.scan node

end Matcher

end PathQuery
