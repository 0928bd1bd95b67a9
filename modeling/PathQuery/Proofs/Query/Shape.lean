import Mathlib.Data.List.Induction
import PathQuery.Proofs.Pattern.Captures
import PathQuery.Proofs.Query.Resolution

/-!
# The shape of answers

A chain fixes how many texts its answers capture and at which of its positions they have
splats. `Shaped` says so of a location that part of a chain led to. Every step keeps it, the
step to the parent included (`shaped_of_mem_step`), so every answer has the shape that its
chain asks for (`find_shape`).
-/

namespace PathQuery

open PathQuery.Tree

variable {α : Type} [Tree α]

/-! ## Captures of one matcher -/

namespace Matcher

/-- The number of texts that a matcher captures. -/
def captureCount (m : Matcher) : Nat :=
  m.key.elim 0 Pattern.captureCount + m.value.elim 0 Pattern.captureCount

theorem length_of_test {pattern : Option Pattern} {subject : Subject} {captures : List String}
    (hsubject : ∀ other, subject ≠ .pattern other) (h : test pattern subject = some captures) :
    captures.length = pattern.elim 0 Pattern.captureCount := by
  cases pattern with
  | none => rw [← Option.some.inj h]; rfl
  | some p => exact Pattern.length_of_captures? hsubject h

theorem ofNode_ne_pattern (node : α) (other : Pattern) : Subject.ofNode node ≠ .pattern other := by
  intro h
  unfold Subject.ofNode at h
  split at h
  · cases h
  · cases h

theorem length_of_matchValue {m : Matcher} {node : α} {captures : List String}
    (h : m.matchValue node = some captures) :
    captures.length = m.value.elim 0 Pattern.captureCount :=
  length_of_test (ofNode_ne_pattern node) h

theorem length_of_matchEntry {m : Matcher} {key : Key} {node : α} {captures : List String}
    (h : m.matchEntry key node = some captures) : captures.length = m.captureCount := by
  obtain ⟨ofKey, hkey, h⟩ := Option.bind_eq_some_iff.1 h
  obtain ⟨ofValue, hvalue, h⟩ := Option.bind_eq_some_iff.1 h
  have hsubject : ∀ other, Subject.key key ≠ .pattern other := fun _ => nofun
  rw [← Option.some.inj h, List.length_append, length_of_test hsubject hkey,
    length_of_matchValue hvalue]
  rfl

/-- A step to the parent captures what its value does. -/
theorem captureCount_of_isParent {m : Matcher} (h : m.isParent = true) :
    m.captureCount = m.value.elim 0 Pattern.captureCount := by
  obtain ⟨value, recursive, rfl⟩ := eq_of_isParent h
  exact Nat.zero_add _

end Matcher

namespace Query

/-! ## The shape of a location -/

/-- The positions of the recursive matchers of a chain, in increasing order. -/
def recursivePositions (ms : List Matcher) : List Nat :=
  (List.range ms.length).filter fun i => ms[i]?.any Matcher.recursive

theorem recursivePositions_concat (ms : List Matcher) (m : Matcher) :
    recursivePositions (ms ++ [m]) =
      recursivePositions ms ++ if m.recursive then [ms.length] else [] := by
  unfold recursivePositions
  rw [List.length_append, List.length_singleton, List.range_succ, List.filter_append]
  congr 1
  · apply List.filter_congr
    intro i hi
    rw [List.getElem?_append_left (List.mem_range.1 hi)]
  · simp [List.filter_cons]

/-- A location captures and splats as the chain that led to it asks for. -/
structure Shaped (ms : List Matcher) (location : Location) : Prop where
  splats : location.splats.map Splat.segment = recursivePositions ms
  captures : location.captures.length = total Matcher.captureCount ms

/-! ## Every step keeps the shape -/

variable {root : α} {ms : List Matcher} {m : Matcher} {location : Location}

theorem isSome_splat_of_mem_hits {node : α} {hit : Hit α} (h : hit ∈ m.hits node) :
    hit.splat.isSome = m.recursive := by
  obtain ⟨visit, -, hhit⟩ := Matcher.mem_hits_iff.1 h
  obtain ⟨captures, -, rfl⟩ := Matcher.hit?_eq_some_iff.1 hhit
  unfold Matcher.splatOf
  cases m.recursive <;> rfl

theorem shaped_extend {node : α} {hit : Hit α} (h : Shaped ms location)
    (hhit : hit ∈ m.hits node) : Shaped (ms ++ [m]) (extend ms.length location hit).location := by
  have hsplat := isSome_splat_of_mem_hits hhit
  obtain ⟨visit, -, heq⟩ := Matcher.mem_hits_iff.1 hhit
  obtain ⟨captures, hcaptures, rfl⟩ := Matcher.hit?_eq_some_iff.1 heq
  constructor
  · rw [recursivePositions_concat, ← h.splats, ← hsplat, extend, List.map_append]
    cases m.splatOf visit <;> rfl
  · simp only [extend, List.length_append, h.captures, Matcher.length_of_matchEntry hcaptures,
      total_append, total, Nat.add_zero]

theorem shaped_up {up : Candidate α} (hm : m.isParent = true) (h : Shaped ms location)
    (hup : parent? root ms.length m location = some up) : Shaped (ms ++ [m]) up.location := by
  obtain ⟨captures, hcaptures, -, -, hlocation⟩ := parent?_eq_some_iff.1 hup
  rw [hlocation]
  constructor
  · rw [recursivePositions_concat, ← h.splats, Location.up, List.map_append]
    cases m.recursive <;> rfl
  · simp only [Location.up, List.length_append, h.captures,
      Matcher.length_of_matchValue hcaptures, total_append, total, Nat.add_zero,
      Matcher.captureCount_of_isParent hm]

theorem shaped_of_mem_step {candidates : List (Candidate α)}
    (h : ∀ candidate ∈ candidates, Shaped ms candidate.location) {next : Candidate α}
    (hnext : next ∈ step root ms.length m candidates) : Shaped (ms ++ [m]) next.location := by
  cases hparent : m.isParent with
  | false =>
    rw [step_of_not_isParent hparent, mem_stepInto_iff] at hnext
    obtain ⟨candidate, hmem, hit, hhit, rfl⟩ := hnext
    exact shaped_extend (h candidate hmem) hhit
  | true =>
    rw [step_of_isParent hparent] at hnext
    obtain ⟨candidate, hmem, -, hup⟩ := exists_of_mem_stepOut hnext
    exact shaped_up hparent (h candidate hmem) hup

/-- Every candidate that a chain keeps has the shape that the chain asks for. -/
theorem shaped_of_mem_run {next : Candidate α} (h : next ∈ run root 0 ms [start root]) :
    Shaped ms next.location := by
  induction ms using List.reverseRecOn generalizing next with
  | nil =>
    rw [run_nil, List.mem_singleton] at h
    rw [h]
    exact ⟨rfl, rfl⟩
  | append_singleton ms m ih =>
    rw [run_concat, Nat.zero_add] at h
    exact shaped_of_mem_step (fun candidate hmem => ih hmem) h

/-! ## Answers -/

/-- **The chain fixes the shape of its answers.** Every answer has one splat for each recursive
matcher, at that matcher's position, steps to the parent included, and captures one text for each
group of each pattern of the chain. -/
theorem find_shape {answer : Answer α} (h : answer ∈ find ⟨ms⟩ root) :
    answer.location.splats.map Splat.segment = recursivePositions ms ∧
      answer.location.captures.length = total Matcher.captureCount ms := by
  obtain ⟨candidate, hmem, hanswer⟩ := mem_find_iff.1 h
  obtain ⟨-, -, hlocation⟩ := answer?_eq_some_iff.1 hanswer
  have hshaped := shaped_of_mem_run hmem
  rw [hlocation] at hshaped
  exact ⟨hshaped.splats, hshaped.captures⟩

/-- The first `b` of a text, with an `x` before it in a group if there is one. -/
def searchOptional (start : Nat) : List Char → Option Regex.Found
  | 'x' :: 'b' :: _ => some ⟨⟨start, start + 2⟩, [some ⟨start, start + 1⟩]⟩
  | 'b' :: _ => some ⟨⟨start, start + 1⟩, [none]⟩
  | _ :: rest => searchOptional (start + 1) rest
  | [] => none

theorem length_of_searchOptional {start : Nat} {text : List Char} {found : Regex.Found}
    (h : searchOptional start text = some found) : found.captured.length = 1 := by
  fun_induction searchOptional start text with
  | case1 => rw [← Option.some.inj h, List.length_singleton]
  | case2 => rw [← Option.some.inj h, List.length_singleton]
  | case3 _ _ _ _ _ ih => exact ih h
  | case4 => cases h

/-- An expression with a group that need not take part, which no token compiles to. -/
def optionalGroup : Expression := ⟨"(x)?b", 1, searchOptional 0, length_of_searchOptional⟩

/-- A recursive search, an optional group and an alternative that take no part, and a recursive step
to the parent. -/
theorem find_shape_alternatives :
    ∃ ms : List Matcher,
      ms = [⟨none, none, true⟩,
        ⟨some (.regex optionalGroup {}),
          some (.regex (Regex.compiled (.alt (.group (.char 'x')) (.group (.char 'b'))) {}) {}),
          false⟩,
        ⟨some .parent, none, true⟩] ∧
      ∃ answer ∈ find ⟨ms⟩ (Json.object [("a", .object [("b", .string "b")])]),
        answer.location = ⟨[.name "a"], ["", "", "b"], [⟨0, [.name "a"]⟩, ⟨2, []⟩]⟩ ∧
          [0, 2] = recursivePositions ms ∧ 3 = total Matcher.captureCount ms := by
  refine ⟨_, rfl, ?_⟩
  have hfind : (find ⟨[⟨none, none, true⟩,
        ⟨some (.regex optionalGroup {}),
          some (.regex (Regex.compiled (.alt (.group (.char 'x')) (.group (.char 'b'))) {}) {}),
          false⟩,
        ⟨some .parent, none, true⟩]⟩ (Json.object [("a", .object [("b", .string "b")])])).map
      Answer.location = [⟨[.name "a"], ["", "", "b"], [⟨0, [.name "a"]⟩, ⟨2, []⟩]⟩] := by
    decide +kernel
  obtain ⟨answer, hmem, hlocation⟩ := List.mem_map.1 (hfind ▸ List.mem_singleton_self _)
  obtain ⟨hsplats, hcaptures⟩ := find_shape hmem
  rw [hlocation] at hsplats hcaptures
  exact ⟨answer, hmem, hlocation, hsplats, hcaptures⟩

end Query

end PathQuery
