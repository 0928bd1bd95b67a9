import PathQuery.Json.Basic
import PathQuery.Proofs.Matcher.Hits
import PathQuery.Proofs.Tree.Trails

/-!
# Recursive searches

A recursive matcher keeps the entries that it has still to test on a stack (`searchStack`). Its
hits are those that recursion on the document finds (`hitsBelow`): the hits of an entry come before
those below its node, and those of one entry before those of the next. The search tests every entry
below the node once, whether or not entries above it are accepted (`hits_eq_hitsBelow`).
-/

namespace PathQuery.Matcher

open PathQuery.Tree

variable {α : Type} [Tree α]

/-! ## The stack -/

/-- The entries of a visited node in the order in which they are put on a stack, the last of them
first. A leaf has none. -/
def pushes (visit : Visit α) : List (Visit α) :=
  if isComposite visit.node then (visits visit.node visit.path).reverse else []

theorem pushes_eq (visit : Visit α) : pushes visit = (visits visit.node visit.path).reverse := by
  unfold pushes
  split
  · rfl
  · rename_i hleaf
    have hscalar : (scalar? visit.node).isSome := by
      simpa [isComposite, Option.isSome_iff_ne_none] using hleaf
    rw [visits, entries_of_scalar _ hscalar]
    rfl

theorem pendingSize_dropLast_append_pushes {stack : List (Visit α)} {top : Visit α}
    (h : stack.getLast? = some top) :
    pendingSize (stack.dropLast ++ pushes top) < pendingSize stack := by
  have hstack : stack.dropLast ++ [top] = stack := List.dropLast_append_getLast? top h
  have hentries := pendingSize_visits_append top.node top.path stack.dropLast
  conv => rhs; rw [← hstack]
  rw [pushes_eq]
  unfold pendingSize at hentries ⊢
  simp only [total_append, total_reverse, total] at hentries ⊢
  omega

/-- Searches from a stack of entries, of which the last one is the top: the top is taken off and
tested, and the entries of its node are put on the stack. -/
def searchStack (m : Matcher) (stack : List (Visit α)) (found : List (Hit α)) : List (Hit α) :=
  match _htop : stack.getLast? with
  | none => found
  | some top =>
    searchStack m (stack.dropLast ++ pushes top) (found ++ (m.hitOfVisit top).toList)
termination_by pendingSize stack
decreasing_by exact pendingSize_dropLast_append_pushes ‹_›

/-- From any stack the search finds the hits of a walk that has the top first. -/
theorem searchStack_eq (m : Matcher) (stack : List (Visit α)) (found : List (Hit α)) :
    m.searchStack stack found = found ++ (walk stack.reverse).filterMap m.hitOfVisit := by
  fun_induction searchStack m stack found with
  | case1 stack found hempty =>
    rw [List.getLast?_eq_none_iff.1 hempty, List.reverse_nil, walk, List.filterMap_nil,
      List.append_nil]
  | case2 stack found top htop ih =>
    have hstack : stack.dropLast ++ [top] = stack := List.dropLast_append_getLast? top htop
    rw [ih, pushes_eq, List.reverse_append, List.reverse_reverse, List.append_assoc, ← hstack,
      List.dropLast_concat, List.reverse_append, List.reverse_singleton, List.singleton_append,
      walk, List.filterMap_cons]
    cases m.hitOfVisit top <;> rfl

theorem hits_eq_searchStack {m : Matcher} (h : m.recursive = true) (node : α) :
    m.hits node = m.searchStack (visits node []).reverse [] := by
  rw [searchStack_eq, List.reverse_reverse, List.nil_append, hits, if_pos h]
  rfl

/-! ## Recursion on the document -/

/-- The hits below a node that `descent` leads to: for each entry the hit that it is, if the
matcher accepts it, and then the hits below its node. The splat of a hit is its path without the
last key, or with it if the matcher has no pattern for keys. -/
def hitsBelow (m : Matcher) (node : α) (descent : List Key) : List (Hit α) :=
  (entries node).attach.flatMap fun ⟨(key, child), _⟩ =>
    ((m.matchEntry key child).map fun captures =>
        { holder := node
          key
          node := child
          path := descent ++ [key]
          captures
          splat := some (if m.key.isNone then descent ++ [key] else descent) : Hit α }).toList ++
      hitsBelow m child (descent ++ [key])
termination_by size node
decreasing_by exact size_lt_of_mem ‹_›

theorem hitsBelow_eq (m : Matcher) (node : α) (descent : List Key) :
    m.hitsBelow node descent = (visits node descent).flatMap fun visit =>
      (m.hitOfVisit visit).toList ++ m.hitsBelow visit.node visit.path := by
  rw [hitsBelow, visits, List.flatMap_map]
  conv => rhs; rw [← List.attach_map_subtype_val (entries node), List.flatMap_map]
  rfl

/-- The entries visited in pre-order that a matcher accepts are its hits. -/
theorem filterMap_preorder (m : Matcher) (node : α) (descent : List Key) :
    (preorder node descent).filterMap m.hitOfVisit = m.hitsBelow node descent := by
  induction node using induction_on_entries generalizing descent with
  | h node ih =>
    rw [preorder_eq, hitsBelow_eq, List.filterMap_flatMap]
    refine List.flatMap_congr fun visit hvisit => ?_
    rw [← ih _ (mem_visits_iff.1 hvisit).2.2, List.filterMap_cons]
    cases m.hitOfVisit visit <;> rfl

/-- **A recursive search is the walk in pre-order.** The loop over a stack, which starts with the
entries of the node, ends with the hits that recursion on the document finds. It tests all entries
below the node, whether or not entries above them are accepted: one for each trail, in the order of
the trails. Each that is accepted is a hit with the node that holds it, its path from the node
searched, and as splat that path without the last key, or with it if the matcher has no pattern for
keys. -/
theorem hits_eq_hitsBelow {m : Matcher} (h : m.recursive = true) (node : α) :
    m.hits node = m.searchStack (visits node []).reverse [] ∧
      m.hits node = m.hitsBelow node [] ∧
      ∃ tests : List (List Nat × Visit α),
        tests.map Prod.snd = below node ∧
        (tests.Pairwise fun x y => x.1 < y.1) ∧
        (∀ trail visit, (trail, visit) ∈ tests ↔ visitAt? node [] trail = some visit) ∧
        m.hits node = (tests.map Prod.snd).filterMap fun visit =>
          (m.matchEntry visit.key visit.node).map fun captures =>
            ⟨visit.holder, visit.key, visit.node, visit.path, captures,
              some (if m.key.isNone then visit.path else visit.path.dropLast)⟩ := by
  have hsearch : m.hits node = (preorder node []).filterMap m.hitOfVisit := by
    rw [hits, if_pos h, search, below_eq_preorder]
  refine ⟨hits_eq_searchStack h node, hsearch.trans (filterMap_preorder m node []),
    numbered node [], ?_, pairwise_lt_numbered node [], fun _ _ => mem_numbered_iff, ?_⟩
  · rw [map_snd_numbered, below_eq_preorder]
  · rw [hsearch, map_snd_numbered]
    congr 1
    funext visit
    have hdescent : visit.path.dropLast = visit.descent := List.dropLast_concat
    rw [hitOfVisit, hdescent]

/-- A matcher without a pattern for keys, in an object that holds an object and an array. -/
theorem hits_eq_hitsBelow_values :
    (Matcher.mk none (some (.literal "x")) true).recursive = true ∧
      ((Matcher.mk none (some (.literal "x")) true).hits (Json.object
          [("a", .object [("b", .string "x")]), ("c", .array [.string "x", .null])])).map
        (fun hit => (hit.path, hit.splat)) =
          [([.name "a", .name "b"], some [.name "a", .name "b"]),
            ([.name "c", .index 0], some [.name "c", .index 0])] ∧
      ∃ tests : List (List Nat × Visit Json),
        tests.map (fun test => test.2.path) = [[.name "a"], [.name "a", .name "b"], [.name "c"],
          [.name "c", .index 1], [.name "c", .index 0]] ∧
        (tests.Pairwise fun x y => x.1 < y.1) ∧
        ([1, 1], ⟨.array [.string "x", .null], .index 0, .string "x", [.name "c"]⟩) ∈ tests := by
  obtain ⟨-, hhits, tests, hbelow, horder, hmem, -⟩ :=
    @hits_eq_hitsBelow Json _ (Matcher.mk none (some (.literal "x")) true) rfl
      (Json.object [("a", .object [("b", .string "x")]), ("c", .array [.string "x", .null])])
  refine ⟨rfl, ?_, tests, ?_, horder, (hmem _ _).2 rfl⟩
  · rw [hhits]
    decide +kernel
  · have hpaths := congrArg (List.map Visit.path) hbelow
    rw [List.map_map] at hpaths
    refine hpaths.trans ?_
    decide +kernel

end PathQuery.Matcher
