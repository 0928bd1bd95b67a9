import PathQuery.Matcher

/-!
# Queries

A query is a chain of matchers. Each takes the candidates found so far, the root
at first, to those one step further; what is left at the end are the answers
(`Query.find`), each with its path, the texts captured on the way, and the keys that
recursive searches went through.
-/

namespace PathQuery

/-- The keys that one recursive segment went through. -/
structure Splat where
  segment : Nat
  /-- The keys, from where the segment began. -/
  path : List Key
  deriving DecidableEq

/-- A place in a document, and how it was reached. -/
structure Location where
  path : List Key := []
  /-- The texts captured, in the order of the chain. -/
  captures : List String := []
  /-- One entry for each recursive segment, in the order of the chain. -/
  splats : List Splat := []
  deriving DecidableEq

/-- A node reached by the segments so far, with the node that holds it. -/
structure Candidate (α : Type) where
  holder : α
  node : α
  location : Location

/-- An answer: a place other than the root, its last key, and the node that holds it. -/
structure Answer (α : Type) where
  holder : α
  key : Key
  location : Location

structure Query where
  matchers : List Matcher

namespace Query

/-! ## Compiling -/

/-- Compiles a path with base flags and those written at its end. -/
def compile [Regex.Engine] (path : String) (flags : Option Flags) : Except CompileError Query :=
  let (flags, text) := Path.flagsOf path.toList flags
  (Matcher.ofPath text flags).map Query.mk

def sameChain : List Matcher → List Matcher → Bool
  | [], [] => true
  | m :: ms, n :: ns => m.same n && sameChain ms ns
  | _, _ => false

def same (a b : Query) : Bool := sameChain a.matchers b.matchers

/-! ## Steps -/

variable {α : Type} [Tree α]

def extend (index : Nat) (found : Location) (hit : Hit α) : Candidate α :=
  { holder := hit.holder
    node := hit.node
    location :=
      { path := found.path ++ hit.path
        captures := found.captures ++ hit.captures
        splats := found.splats ++ (hit.splat.map (Splat.mk index)).toList } }

/-- Goes from each candidate to the hits at its node. -/
def stepInto (index : Nat) (m : Matcher) (candidates : List (Candidate α)) :
    List (Candidate α) :=
  candidates.flatMap fun candidate =>
    (m.hits candidate.node).map (extend index candidate.location)

/-- The node at a path and the node that holds it; the root holds itself. -/
def holderAndNode? (root : α) (path : List Key) : Option (α × α) := do
  let node ← Tree.resolve? root path
  let holder ← Tree.resolve? root path.dropLast
  return (holder, node)

/-- The candidate one level up, if there is one and the matcher accepts its node. -/
def parent? (root : α) (index : Nat) (m : Matcher) (location : Location) :
    Option (Candidate α) := do
  let path := location.path.dropLast
  let (holder, node) ← holderAndNode? root path
  let captures ← m.matchValue node
  return {
    holder
    node
    location :=
      { path
        captures := location.captures ++ captures
        splats := location.splats ++ if m.recursive then [⟨index, []⟩] else [] } }

/-- Goes from each candidate to its parent. Candidates that share a parent give one, the first
of them that is accepted; the root has no parent. The paths reached so far are `seen`. -/
def stepOut (root : α) (index : Nat) (m : Matcher) :
    (seen : List (List Key)) → List (Candidate α) → List (Candidate α)
  | _, [] => []
  | seen, candidate :: rest =>
    let path := candidate.location.path.dropLast
    if candidate.location.path.isEmpty || seen.contains path then stepOut root index m seen rest
    else
      match parent? root index m candidate.location with
      | some up => up :: stepOut root index m (path :: seen) rest
      | none => stepOut root index m seen rest

def step (root : α) (index : Nat) (m : Matcher) (candidates : List (Candidate α)) :
    List (Candidate α) :=
  if m.isParent then stepOut root index m [] candidates else stepInto index m candidates

/-- The steps of a chain, the first of which has the given position. -/
def run (root : α) : (index : Nat) → List Matcher → List (Candidate α) → List (Candidate α)
  | _, [], candidates => candidates
  | index, m :: rest, candidates => run root (index + 1) rest (step root index m candidates)

/-! ## Answers -/

def start (root : α) : Candidate α := ⟨root, root, {}⟩

/-- The answer that a candidate is, unless it is the root. -/
def answer? (candidate : Candidate α) : Option (Answer α) :=
  candidate.location.path.getLast?.map fun key => ⟨candidate.holder, key, candidate.location⟩

/-- The answers of a query in a document. A query without segments has none. -/
def find (query : Query) (root : α) : List (Answer α) :=
  (run root 0 query.matchers [start root]).filterMap answer?

/-- Shows the answers among candidates to a visitor, one after the other, and gives their places. -/
def report {σ : Type} (visit : σ → Answer α → σ) :
    σ → List (Candidate α) → σ × List Location
  | state, [] => (state, [])
  | state, candidate :: rest =>
    match answer? candidate with
    | none => report visit state rest
    | some answer =>
      let (state, places) := report visit (visit state answer) rest
      (state, answer.location :: places)

/-- Shows the answers of a query in a document to a visitor, which starts from `state`, and gives
what the visitor leaves behind and the places of the answers. -/
def findEach {σ : Type} (query : Query) (root : α) (visit : σ → Answer α → σ) (state : σ) :
    σ × List Location :=
  report visit state (run root 0 query.matchers [start root])

end Query

namespace Matcher

variable {α : Type} [Tree α]

/-- The answers of a matcher at a node, with paths from there. -/
def find (m : Matcher) (node : α) : List (Answer α) :=
  (m.hits node).map fun hit =>
    ⟨hit.holder, hit.key, ⟨hit.path, hit.captures, (hit.splat.map (Splat.mk 0)).toList⟩⟩

end Matcher

end PathQuery
