import Mathlib.Data.List.Forall2
import PathQuery.Proofs.Query.Chain
import PathQuery.Proofs.Tree.Documents

/-!
# Answers as ways of splitting a path

A chain without steps to the parent splits a path from the root into pieces, one for
each matcher, which goes along its piece (`Matcher.along?`). `find_splittings`: in a
coherent document the answers are the ways of doing so, each once. The places that
recursive searches went through, the splats, are read off the pieces.
-/

namespace PathQuery.Query

open PathQuery.Tree

variable {α : Type} [Tree α]

/-- What a chain captures along the pieces of a path from a node, if each matcher goes along its
piece. -/
def along? : List Matcher → α → List (List Key) → Option (List String)
  | [], _, [] => some []
  | m :: ms, node, piece :: pieces => do
    let (captures, target) ← m.along? node piece
    let rest ← along? ms target pieces
    some (captures ++ rest)
  | _, _, _ => none

/-- The splats of a chain along the pieces of a path, where the first matcher has the given
position. -/
def splatsAlong : Nat → List Matcher → List (List Key) → List Splat
  | index, m :: ms, piece :: pieces =>
    ((m.splatAlong piece).map (Splat.mk index)).toList ++ splatsAlong (index + 1) ms pieces
  | _, _, _ => []

/-- The pieces that the hits of a chain go along, in the order of the hits. -/
def splittings : List Matcher → α → List (List (List Key))
  | [], _ => [[]]
  | m :: ms, node =>
    (m.hits node).flatMap fun hit => (splittings ms hit.node).map (hit.path :: ·)

theorem along?_cons {m : Matcher} {ms : List Matcher} {node target : α} {piece : List Key}
    {captures : List String} (h : m.along? node piece = some (captures, target))
    (pieces : List (List Key)) :
    along? (m :: ms) node (piece :: pieces) =
      (along? ms target pieces).map fun rest => captures ++ rest := by
  rw [along?, h, Option.map_eq_bind]
  rfl

/-! ## The splittings of a coherent document -/

theorem mem_splittings_iff {ms : List Matcher} {node : α} (hc : Coherent node)
    {pieces : List (List Key)} :
    pieces ∈ splittings ms node ↔ (along? ms node pieces).isSome := by
  induction ms generalizing node pieces with
  | nil => cases pieces <;> simp [splittings, along?]
  | cons m ms ih =>
    rw [splittings, List.mem_flatMap]
    constructor
    · rintro ⟨hit, hhit, hmem⟩
      obtain ⟨rest, hrest, rfl⟩ := List.mem_map.1 hmem
      have hnode := hc.of_leads (Matcher.leads_of_mem_hits hhit).2.1
      rw [along?_cons (Matcher.along?_of_mem_hits hc hhit).1, Option.isSome_map]
      exact (ih hnode).1 hrest
    · intro h
      cases pieces with
      | nil => cases h
      | cons piece rest =>
        cases halong : m.along? node piece with
        | none =>
          rw [along?, halong] at h
          cases h
        | some result =>
          obtain ⟨captures, target⟩ := result
          rw [along?_cons halong, Option.isSome_map] at h
          obtain ⟨hit, hhit, rfl, rfl, rfl⟩ := Matcher.exists_hit_of_along? hc halong
          have hnode := hc.of_leads (Matcher.leads_of_mem_hits hhit).2.1
          exact ⟨hit, hhit, List.mem_map.2 ⟨rest, (ih hnode).2 h, rfl⟩⟩

theorem nodup_splittings (ms : List Matcher) {node : α} (hc : Coherent node) :
    (splittings ms node).Nodup := by
  induction ms generalizing node with
  | nil => exact List.nodup_singleton _
  | cons m ms ih =>
    rw [splittings, List.nodup_flatMap]
    constructor
    · intro hit hhit
      have hnode := hc.of_leads (Matcher.leads_of_mem_hits hhit).2.1
      exact (ih hnode).map fun _ _ heq => (List.cons.inj heq).2
    · -- the first pieces are the paths of the hits, which differ
      have hpaths := Matcher.nodup_hits hc m
      rw [List.Nodup, List.pairwise_map] at hpaths
      refine hpaths.imp ?_
      intro first second hne pieces hfirst hsecond
      obtain ⟨_, -, rfl⟩ := List.mem_map.1 hfirst
      obtain ⟨_, -, heq⟩ := List.mem_map.1 hsecond
      exact hne (List.cons.inj heq).1.symm

/-! ## The run of a chain -/

theorem forall₂_flatMap {β γ δ : Type} {R : γ → δ → Prop} {f : β → List γ} {g : β → List δ}
    {xs : List β} (h : ∀ x ∈ xs, List.Forall₂ R (f x) (g x)) :
    List.Forall₂ R (xs.flatMap f) (xs.flatMap g) := by
  induction xs with
  | nil => exact .nil
  | cons x xs ih =>
    rw [List.flatMap_cons, List.flatMap_cons]
    exact List.rel_append (h x List.mem_cons_self) (ih fun y hy => h y (List.mem_cons_of_mem x hy))

/-- A chain goes along pieces of a path from a node, and so from one location to another. -/
structure Extends (index : Nat) (ms : List Matcher) (node : α) (before : Location)
    (pieces : List (List Key)) (after : Location) : Prop where
  captures : (along? ms node pieces).map (before.captures ++ ·) = some after.captures
  path : after.path = before.path ++ pieces.flatten
  splats : after.splats = before.splats ++ splatsAlong index ms pieces

/-- The candidates that a chain leads to from a candidate are its splittings, one for one. -/
theorem forall₂_run {ms : List Matcher} (h : ∀ m ∈ ms, m.isParent = false) (root : α)
    (index : Nat) (candidate : Candidate α) (hc : Coherent candidate.node) :
    List.Forall₂
      (fun pieces next => Extends index ms candidate.node candidate.location pieces next.location)
      (splittings ms candidate.node) (run root index ms [candidate]) := by
  induction ms generalizing index candidate with
  | nil =>
    refine .cons ⟨?_, ?_, ?_⟩ .nil
    · rw [along?, Option.map_some, List.append_nil]
    · rw [List.flatten_nil, List.append_nil]
    · rw [splatsAlong, List.append_nil]
      intro _ _ _ _ _ heq
      cases heq
  | cons m ms ih =>
    have hm := h m List.mem_cons_self
    have hms := fun m' hm' => h m' (List.mem_cons_of_mem m hm')
    rw [splittings, run_cons_singleton hm hms]
    refine forall₂_flatMap fun hit hhit => ?_
    obtain ⟨halong, hsplat⟩ := Matcher.along?_of_mem_hits hc hhit
    have hnode := hc.of_leads (Matcher.leads_of_mem_hits hhit).2.1
    rw [List.forall₂_map_left_iff]
    refine (ih hms (index + 1) (extend index candidate.location hit) hnode).imp ?_
    rintro pieces next ⟨hcaptures, hpath, hsplats⟩
    refine ⟨?_, ?_, ?_⟩
    · rw [along?_cons halong, Option.map_map, ← hcaptures]
      congr 1
      funext rest
      exact (List.append_assoc _ _ _).symm
    · rw [hpath, List.flatten_cons, ← List.append_assoc]
      rfl
    · rw [hsplats, splatsAlong, ← hsplat, ← List.append_assoc]
      rfl

/-- **The answers are the ways of splitting a path.** In a coherent document, a chain that has no
step to the parent gives one answer for each way of splitting a path from the root into pieces
that its matchers go along, and no other: the answer's path is the pieces one after the other, and
its captures and splats are those along the pieces. -/
theorem find_splittings {root : α} (hc : Coherent root) {ms : List Matcher} (hne : ms ≠ [])
    (h : ∀ m ∈ ms, m.isParent = false) :
    ∃ ways : List (List (List Key)), ways.Nodup ∧
      (∀ pieces, pieces ∈ ways ↔ (along? ms root pieces).isSome) ∧
      List.Forall₂ (fun pieces answer =>
          along? ms root pieces = some answer.location.captures ∧
          answer.location.path = pieces.flatten ∧
          answer.location.splats = splatsAlong 0 ms pieces)
        ways (find ⟨ms⟩ root) := by
  refine ⟨splittings ms root, nodup_splittings ms hc, fun _ => mem_splittings_iff hc, ?_⟩
  have hpaths : ∀ candidate ∈ run root 0 ms [start root], candidate.location.path ≠ [] :=
    fun _ hmem => path_ne_nil_of_mem_run hne h hmem
  have hrun := forall₂_run h root 0 (start root) hc
  rw [← List.forall₂_map_right_iff (f := Candidate.location),
    ← location_filterMap_answer? hpaths, List.forall₂_map_right_iff] at hrun
  refine hrun.imp fun pieces answer hextends => ?_
  obtain ⟨hcaptures, hpath, hsplats⟩ := hextends
  refine ⟨?_, hpath, hsplats⟩
  have hid : (fun rest => (start root).location.captures ++ rest) = id := rfl
  rw [hid, Option.map_id] at hcaptures
  exact hcaptures

/-- Two recursive matchers split the paths below `a` in three ways, two of them the same path. -/
theorem find_splittings_nested :
    ∃ (root : Json) (ms : List Matcher),
      root = .object [("a", .object [("b", .object [("b", .null)])])] ∧
      ms = [⟨none, none, true⟩,
        ⟨some (.regex (Regex.compiled (.cat (.group .anyOne) (.char 'b')) {}) {}), none, true⟩] ∧
      Coherent root ∧
      (find ⟨ms⟩ root).map Answer.location =
        [⟨[.name "a", .name "b"], [""], [⟨0, [.name "a"]⟩, ⟨1, []⟩]⟩,
          ⟨[.name "a", .name "b", .name "b"], [""], [⟨0, [.name "a"]⟩, ⟨1, [.name "b"]⟩]⟩,
          ⟨[.name "a", .name "b", .name "b"], [""], [⟨0, [.name "a", .name "b"]⟩, ⟨1, []⟩]⟩] ∧
      ∃ ways : List (List (List Key)), ways.Nodup ∧ ways.length = 3 ∧
        ∀ pieces ∈ [[[.name "a"], [.name "b"]], [[.name "a"], [.name "b", .name "b"]],
            [[.name "a", .name "b"], [.name "b"]]],
          along? ms root pieces = some [""] ∧ pieces ∈ ways := by
  refine ⟨_, _, rfl, rfl, by decide, by decide +kernel, ?_⟩
  obtain ⟨ways, hnodup, hmem, hanswers⟩ := @find_splittings Json _
    (.object [("a", .object [("b", .object [("b", .null)])])]) (by decide)
    [⟨none, none, true⟩,
      ⟨some (.regex (Regex.compiled (.cat (.group .anyOne) (.char 'b')) {}) {}), none, true⟩]
    (by decide) (by decide)
  refine ⟨ways, hnodup, ?_, fun pieces hpieces => ?_⟩
  · rw [hanswers.length_eq]
    decide +kernel
  · rw [hmem]
    revert pieces
    decide +kernel

end PathQuery.Query
