import PathQuery.Proofs.Matcher.Compile
import PathQuery.Proofs.Matcher.Outcomes
import PathQuery.Proofs.Path.Join
import PathQuery.Proofs.Query.Resolution

/-!
# Queries behind one another

A chain without steps to the parent goes on from a candidate as it does from the root of the
document that is the candidate's node, but for what the candidate brings along
(`run_eq_join`). So a chain in two parts finds what the second part finds at the nodes that
the first part finds (`find_append`), and two paths with a slash between them are such a chain
(`find_join`).
-/

namespace PathQuery

open PathQuery.Tree

/-! ## Locations behind one another -/

/-- The splat of a segment that stands behind `length` others. -/
def Splat.shift (length : Nat) (splat : Splat) : Splat := ⟨length + splat.segment, splat.path⟩

/-- A location that goes on from another one, which `length` segments lead to. -/
def Location.join (length : Nat) (first second : Location) : Location :=
  { path := first.path ++ second.path
    captures := first.captures ++ second.captures
    splats := first.splats ++ second.splats.map (Splat.shift length) }

variable {α : Type}

def Candidate.join (length : Nat) (first : Location) (second : Candidate α) : Candidate α :=
  { second with location := first.join length second.location }

/-- An answer at a place that goes on from another one, which `length` segments lead to. -/
def Answer.join (length : Nat) (first : Location) (second : Answer α) : Answer α :=
  { second with location := first.join length second.location }

variable [Tree α]

/-! ## Matchers of segments that are no step to the parent -/

namespace Matcher

open PathQuery.Path

variable {flags : Option Flags}

theorem isParent_of_compileToken [Regex.Engine] {token : Option Token}
    (hwritten : ∀ t ∈ token, t.Written)
    (hkey : token ≠ some .parent) {key : Option Pattern}
    (h : compileToken token flags = .ok key) : key.any Pattern.isParent = false := by
  cases token with
  | none =>
    cases h
    rfl
  | some token =>
    cases hwritten token rfl with
    | parent => exact absurd rfl hkey
    | any =>
      cases h
      rfl
    | text s =>
      unfold compileToken at h
      dsimp only at h
      split at h
      · cases h
        rfl
      · obtain ⟨p, hp, rfl⟩ := exists_of_map_eq_ok h
        exact Pattern.isParent_of_ofText hp

theorem isParent_of_ofSegment [Regex.Engine] {segment : Segment} (hwritten : segment.Written)
    (hkey : segment.key ≠ some .parent) {m : Matcher} (h : ofSegment segment flags = .ok m) :
    m.isParent = false := by
  unfold ofSegment ofTokens at h
  obtain ⟨key, hfirst, h⟩ := exists_of_bind_eq_ok h
  obtain ⟨value, -, h⟩ := exists_of_bind_eq_ok h
  cases h
  exact isParent_of_compileToken hwritten.key hkey hfirst

/-- A path without steps to the parent has no matchers for such a step. -/
theorem isParent_of_ofPath [Regex.Engine] {path : List Char}
    (hsteps : ∀ segment ∈ Segment.ofPath path, segment.key ≠ some .parent) {ms : List Matcher}
    (h : ofPath path flags = .ok ms) : ∀ m ∈ ms, m.isParent = false := by
  intro m hm
  obtain ⟨segment, hsegment, hcompile⟩ := exists_segment_of_mem h hm
  have hkeys := (@Segment.forall_key_ofPath_iff path (· ≠ some .parent)).1 hsteps
  exact isParent_of_ofSegment (Segment.written_of_mem_ofTexts false _ segment hsegment)
    (hkeys segment hsegment) hcompile

theorem ne_nil_of_ofPath [Regex.Engine] {path : List Char} (hpath : Segment.ofPath path ≠ [])
    {ms : List Matcher} (h : ofPath path flags = .ok ms) : ms ≠ [] := by
  rintro rfl
  apply hpath
  rw [Segment.ofPath, List.forall₂_nil_right_iff.1 (ofPath_eq_ok_iff.1 h)]
  rfl

/-- Two paths with a slash between them compile to the matchers of both. -/
theorem ofPath_join [Regex.Engine] {p q : List Char} (hopen : endsOpen p = false)
    (hpending : ¬Segment.EndsPending p) {ms ns : List Matcher} (hp : ofPath p flags = .ok ms)
    (hq : ofPath q flags = .ok ns) : ofPath (p ++ '/' :: q) flags = .ok (ms ++ ns) := by
  rw [ofPath_eq_ok_iff] at hp hq ⊢
  rw [Segment.ofTexts_join hopen hpending]
  exact List.rel_append hp hq

end Matcher

namespace Query

/-! ## Chains in two parts -/

theorem stepInto_map_join (length index : Nat) (m : Matcher) (first : Location)
    (candidates : List (Candidate α)) :
    stepInto (length + index) m (candidates.map (Candidate.join length first)) =
      (stepInto index m candidates).map (Candidate.join length first) := by
  rw [stepInto, stepInto, List.flatMap_map, List.map_flatMap]
  refine List.flatMap_congr fun candidate _ => ?_
  rw [List.map_map]
  refine List.map_congr_left fun hit _ => ?_
  simp only [Function.comp_apply, extend, Candidate.join, Location.join, List.append_assoc,
    List.map_append]
  cases hit.splat <;> rfl

theorem run_map_join {ms : List Matcher} (h : ∀ m ∈ ms, m.isParent = false) (root root' : α)
    (length index : Nat) (first : Location) (candidates : List (Candidate α)) :
    run root (length + index) ms (candidates.map (Candidate.join length first)) =
      (run root' index ms candidates).map (Candidate.join length first) := by
  induction ms generalizing index candidates with
  | nil => rfl
  | cons m ms ih =>
    obtain ⟨hm, hms⟩ := List.forall_mem_cons.1 h
    rw [run_cons, run_cons, step_of_not_isParent hm, step_of_not_isParent hm, stepInto_map_join,
      Nat.add_assoc, ih hms]

/-- A chain without steps to the parent goes on from a candidate as from a document of its own. -/
theorem run_eq_join {ms : List Matcher} (hne : ms ≠ []) (h : ∀ m ∈ ms, m.isParent = false)
    (root : α) (length : Nat) (candidate : Candidate α) :
    run root length ms [candidate] =
      (run candidate.node 0 ms [start candidate.node]).map
        (Candidate.join length candidate.location) := by
  rw [← run_map_join h root]
  obtain ⟨m, rest, rfl⟩ := List.exists_cons_of_ne_nil hne
  have hm := h m List.mem_cons_self
  -- The two candidates differ in their holders, which a step down does not look at.
  have hlocation : candidate.location.join length {} = candidate.location := by
    unfold Location.join
    simp only [List.map_nil, List.append_nil]
  rw [run_cons, run_cons, step_of_not_isParent hm, step_of_not_isParent hm, List.map_singleton,
    stepInto_singleton, stepInto_singleton, Candidate.join, start]
  dsimp only
  rw [hlocation]
  rfl

omit [Tree α] in
theorem answer?_join {length : Nat} {first : Location} {second : Candidate α}
    (h : second.location.path ≠ []) :
    answer? (second.join length first) = (answer? second).map (Answer.join length first) := by
  unfold answer? Candidate.join Location.join
  dsimp only
  rw [List.getLast?_append_of_ne_nil _ h, Option.map_map]
  rfl

/-- A chain in two parts finds what the second part finds at the nodes that the first part finds. -/
theorem find_append {ms ns : List Matcher} (hms : ms ≠ []) (hns : ns ≠ [])
    (hdown : ∀ m ∈ ms, m.isParent = false) (hdown' : ∀ n ∈ ns, n.isParent = false) {root : α}
    (hc : Consistent root) :
    find ⟨ms ++ ns⟩ root =
      (find ⟨ms⟩ root).flatMap fun first =>
        (resolve? root first.location.path).toList.flatMap fun node =>
          (find ⟨ns⟩ node).map (Answer.join ms.length first.location) := by
  unfold find
  dsimp only
  rw [run_append, Nat.zero_add, run_eq_flatMap hdown', List.filterMap_flatMap,
    List.filterMap_eq_flatMap_toList answer? (run root 0 ms [start root]), List.flatMap_assoc]
  refine List.flatMap_congr fun candidate hmem => ?_
  have hpath := path_ne_nil_of_mem_run hms hdown hmem
  have hnode := (sound_of_mem_run hc ms 0 (sound_of_mem_start root) hmem).node.resolve?_eq hc
  have hanswer : answer? candidate =
      some ⟨candidate.holder, candidate.location.path.getLast hpath, candidate.location⟩ :=
    answer?_eq_some_iff.2 ⟨List.getLast?_eq_some_getLast hpath, rfl, rfl⟩
  rw [hanswer, Option.toList_some, List.flatMap_singleton]
  dsimp only
  rw [hnode, Option.toList_some, List.flatMap_singleton, run_eq_join hns hdown', List.filterMap_map,
    List.map_filterMap]
  refine List.filterMap_congr fun second hsecond => ?_
  exact answer?_join (path_ne_nil_of_mem_run hns hdown' hsecond)

/-- **Paths compose.** Two paths without steps to the parent, the first of which leaves neither a
backslash nor a `**` waiting, compile with a slash between them to a chain. It finds, for each
answer of the first path in order, what the second path finds at the node there, joined to it. -/
theorem find_join [Regex.Engine] {p q : List Char} {flags : Option Flags} {ms ns : List Matcher}
    (hopen : Path.endsOpen p = false) (hpending : ¬Segment.EndsPending p)
    (hp : Segment.ofPath p ≠ []) (hq : Segment.ofPath q ≠ [])
    (hdown : ∀ segment ∈ Segment.ofPath p, segment.key ≠ some .parent)
    (hdown' : ∀ segment ∈ Segment.ofPath q, segment.key ≠ some .parent)
    (hms : Matcher.ofPath p flags = .ok ms) (hns : Matcher.ofPath q flags = .ok ns) {root : α}
    (hc : Consistent root) :
    ∃ chain, Matcher.ofPath (p ++ '/' :: q) flags = .ok chain ∧
      (∀ first ∈ find ⟨ms⟩ root, (resolve? root first.location.path).isSome) ∧
      find ⟨chain⟩ root =
        (find ⟨ms⟩ root).flatMap fun first =>
          (resolve? root first.location.path).toList.flatMap fun node =>
            (find ⟨ns⟩ node).map (Answer.join ms.length first.location) := by
  refine ⟨ms ++ ns, Matcher.ofPath_join hopen hpending hms hns, fun first hfirst => ?_, ?_⟩
  · obtain ⟨-, node, hnode, -⟩ := child?_of_mem_find hc hfirst
    exact Option.isSome_of_eq_some hnode
  · exact find_append (Matcher.ne_nil_of_ofPath hp hms) (Matcher.ne_nil_of_ofPath hq hns)
      (Matcher.isParent_of_ofPath hdown hms) (Matcher.isParent_of_ofPath hdown' hns) hc

/-- A search on both sides of the slash: the second one is that of the third segment. -/
theorem find_join_nested :
    ∃ p q : List Char, p = "**/a*".toList ∧ q = "./?x/**".toList ∧
      ∃ root : Json,
        root = .object [("n", .object [("ab", .object [("bx", .object [("c", .null)])])])] ∧
      ∃ ms ns chain, Matcher.ofPath p none = .ok ms ∧ Matcher.ofPath q none = .ok ns ∧
        Matcher.ofPath (p ++ '/' :: q) none = .ok chain ∧
        (find ⟨ms⟩ root).map Answer.location =
          [⟨[.name "n", .name "ab"], ["b"], [⟨0, [.name "n"]⟩]⟩] ∧
        (find ⟨chain⟩ root).map Answer.location =
          [⟨[.name "n", .name "ab", .name "bx", .name "c"], ["b", "b"],
            [⟨0, [.name "n"]⟩, ⟨2, []⟩]⟩] ∧
        find ⟨chain⟩ root =
          (find ⟨ms⟩ root).flatMap fun first =>
            (resolve? root first.location.path).toList.flatMap fun node =>
              (find ⟨ns⟩ node).map (Answer.join ms.length first.location) := by
  have hcompiled : ((Matcher.ofPath "**/a*".toList none).toOption.bind fun ms =>
      (Matcher.ofPath "./?x/**".toList none).toOption.bind fun _ =>
        (Matcher.ofPath ("**/a*".toList ++ '/' :: "./?x/**".toList) none).toOption.map fun chain =>
          ((find ⟨ms⟩ (Json.object
              [("n", .object [("ab", .object [("bx", .object [("c", .null)])])])])).map
              Answer.location,
            (find ⟨chain⟩ (Json.object
              [("n", .object [("ab", .object [("bx", .object [("c", .null)])])])])).map
              Answer.location)) =
      some ([⟨[.name "n", .name "ab"], ["b"], [⟨0, [.name "n"]⟩]⟩],
        [⟨[.name "n", .name "ab", .name "bx", .name "c"], ["b", "b"],
          [⟨0, [.name "n"]⟩, ⟨2, []⟩]⟩]) := by
    decide +kernel
  have hc : Coherent (Json.object
      [("n", .object [("ab", .object [("bx", .object [("c", .null)])])])]) := by
    decide
  have hfirst : Segment.ofPath "**/a*".toList =
      [⟨some (Segment.textToken "a*".toList), none, true, true⟩] := rfl
  have hsecond : Segment.ofPath "./?x/**".toList =
      [⟨some (Segment.textToken "?x".toList), none, false, false⟩,
        ⟨some (.pattern .any), none, true, true⟩] := rfl
  have hpending : ¬Segment.EndsPending "**/a*".toList := by
    rw [Segment.EndsPending, hfirst]
    simp [Segment.textToken]
  have hdown : ∀ segment ∈ Segment.ofPath "**/a*".toList, segment.key ≠ some .parent := by
    rw [hfirst]
    simp [Segment.textToken]
  have hdown' : ∀ segment ∈ Segment.ofPath "./?x/**".toList, segment.key ≠ some .parent := by
    rw [hsecond]
    simp [Segment.textToken]
  cases hms : Matcher.ofPath "**/a*".toList none with
  | error error =>
    rw [hms] at hcompiled
    cases hcompiled
  | ok ms =>
    cases hns : Matcher.ofPath "./?x/**".toList none with
    | error error =>
      rw [hms, hns] at hcompiled
      cases hcompiled
    | ok ns =>
      obtain ⟨chain, hchain, -, hjoin⟩ :=
        find_join rfl hpending (hfirst ▸ List.cons_ne_nil _ _) (hsecond ▸ List.cons_ne_nil _ _)
          hdown hdown' hms hns hc.consistent
      rw [hms, hns, hchain] at hcompiled
      obtain ⟨hlocations, hjoined⟩ := Prod.mk.inj (Option.some.inj hcompiled)
      exact ⟨_, _, rfl, rfl, _, rfl, ms, ns, chain, hms, hns, hchain, hlocations, hjoined, hjoin⟩

end Query

end PathQuery
