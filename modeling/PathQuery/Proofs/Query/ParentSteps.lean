import PathQuery.Proofs.Path.WellFormed
import PathQuery.Proofs.Query.Composition

/-!
# Steps to the parent in a path

In a chain a step to the parent can be recursive, and adds an empty splat then. A path has no such
step, whatever marks stand before it: its segments are well formed, and its matchers are those of
its segments (`recursive_of_isParent`). So on the way up a compiled query keeps the splats of its
candidates (`ofPath_wellFormed`).
-/

namespace PathQuery

namespace Matcher

theorem recursive_of_ofSegment [Regex.Engine] {segment : Segment} {flags : Option Flags}
    {m : Matcher} (h : ofSegment segment flags = .ok m) : m.recursive = segment.recursive := by
  obtain ⟨key, -, h⟩ := exists_of_bind_eq_ok h
  obtain ⟨value, -, h⟩ := exists_of_bind_eq_ok h
  cases h
  rfl

/-- No matcher of a path is a recursive step to the parent. -/
theorem recursive_of_isParent [Regex.Engine] {path : List Char} {flags : Option Flags}
    {ms : List Matcher} (h : ofPath path flags = .ok ms) {m : Matcher} (hm : m ∈ ms)
    (hparent : m.isParent = true) : m.recursive = false := by
  obtain ⟨segment, hsegment, hcompile⟩ := exists_segment_of_mem h hm
  have hkey : segment.key = some .parent := by
    by_contra hkey
    have hwritten := Segment.written_of_mem_ofTexts false _ segment hsegment
    rw [isParent_of_ofSegment hwritten hkey hcompile] at hparent
    cases hparent
  rw [recursive_of_ofSegment hcompile]
  rcases Segment.wellFormed_of_mem_ofTexts hsegment with hwell | rfl
  · exact hwell.parent hkey
  · cases hkey

end Matcher

namespace Query

theorem recursive_of_compile [Regex.Engine] {path : String} {flags : Option Flags} {query : Query}
    (h : compile path flags = .ok query) {m : Matcher} (hm : m ∈ query.matchers)
    (hparent : m.isParent = true) : m.recursive = false := by
  obtain ⟨ms, hms, rfl⟩ := exists_of_map_eq_ok h
  exact Matcher.recursive_of_isParent hms hm hparent

variable {α : Type} [Tree α]

/-- A step to the parent that is not recursive keeps the splats. -/
theorem exists_splats_eq_of_mem_step {root : α} {index : Nat} {m : Matcher}
    (hparent : m.isParent = true) (hrecursive : m.recursive = false)
    {candidates : List (Candidate α)} {up : Candidate α}
    (h : up ∈ step root index m candidates) :
    ∃ candidate ∈ candidates, up.location.splats = candidate.location.splats := by
  rw [step_of_isParent hparent] at h
  obtain ⟨candidate, hmem, -, hup⟩ := exists_of_mem_stepOut h
  obtain ⟨captures, -, -, -, hlocation⟩ := parent?_eq_some_iff.1 hup
  refine ⟨candidate, hmem, ?_⟩
  rw [hlocation, Location.up, hrecursive]
  exact List.append_nil _

end Query

/-- **What a path is read as.** Each of its segments is well formed for its place: no step to the
parent is recursive, no text is empty, no key that is text is a mark or has a bare equals sign, the
segment for everything only stands at the end, and the last segment is the one that is marked. So in
a query compiled from a path no step to the parent is recursive: in every document each candidate
that such a step gives has the splats of one that it was given. -/
theorem Segment.ofPath_wellFormed [Regex.Engine] :
    (∀ (path : List Char) (i : Nat) (segment : Segment), (ofPath path)[i]? = some segment →
        segment.WellFormed (i + 1 == (ofPath path).length)) ∧
      ∀ (path : String) (flags : Option Flags) (query : Query),
        Query.compile path flags = .ok query →
        ∀ m ∈ query.matchers, m.isParent = true →
          m.recursive = false ∧
            ∀ {α : Type} [Tree α] (root : α) (index : Nat) (candidates : List (Candidate α)),
              ∀ up ∈ Query.step root index m candidates,
                ∃ candidate ∈ candidates, up.location.splats = candidate.location.splats := by
  refine ⟨fun path i segment h => wellFormed_of_getElem?_ofPath h, ?_⟩
  intro path flags query h m hm hparent
  have hrecursive := Query.recursive_of_compile h hm hparent
  refine ⟨hrecursive, ?_⟩
  intro α _ root index candidates up hup
  exact Query.exists_splats_eq_of_mem_step hparent hrecursive hup

/-- A path with every mark, of which one parent step is dropped behind a `**` and one searched for
as any key, and a step to the parent behind a search. -/
theorem Segment.ofPath_wellFormed_marks :
    (ofPath "../**/../..=x/a\\=b=/**/".toList)[2]? =
        some ⟨some (.text "a\\=b"), none, false, false⟩ ∧
      WellFormed false ⟨some (.text "a\\=b"), none, false, false⟩ ∧
      (ofPath "../**/../..=x/a\\=b=/**/".toList)[3]? =
        some ⟨some (.pattern .any), none, true, true⟩ ∧
      WellFormed true ⟨some (.pattern .any), none, true, true⟩ ∧
      ∃ query, Query.compile "**/b/.." none = .ok query ∧
        ⟨some .parent, none, false⟩ ∈ query.matchers ∧
        ∃ up : Candidate Json,
          up.location = ⟨[.name "a"], [], [⟨0, [.name "a"]⟩]⟩ ∧
          up ∈ Query.step (Json.object [("a", .object [("b", .null)])]) 1
            ⟨some .parent, none, false⟩
            [⟨.object [("b", .null)], .null, ⟨[.name "a", .name "b"], [], [⟨0, [.name "a"]⟩]⟩⟩] ∧
          up.location.splats = [⟨0, [.name "a"]⟩] := by
  obtain ⟨hsegments, hqueries⟩ := Segment.ofPath_wellFormed
  have htext : (ofPath "../**/../..=x/a\\=b=/**/".toList)[2]? =
      some ⟨some (.text "a\\=b"), none, false, false⟩ := rfl
  have hall : (ofPath "../**/../..=x/a\\=b=/**/".toList)[3]? =
      some ⟨some (.pattern .any), none, true, true⟩ := rfl
  have hcompile : Query.compile "**/b/.." none =
      .ok ⟨[⟨some (.literal "b"), none, true⟩, ⟨some .parent, none, false⟩]⟩ := rfl
  have hmem : (⟨some .parent, none, false⟩ : Matcher) ∈
      [⟨some (.literal "b"), none, true⟩, ⟨some .parent, none, false⟩] :=
    List.mem_cons_of_mem _ List.mem_cons_self
  have hup : (⟨.object [("a", .object [("b", .null)])], .object [("b", .null)],
        ⟨[.name "a"], [], [⟨0, [.name "a"]⟩]⟩⟩ : Candidate Json) ∈
      Query.step (Json.object [("a", .object [("b", .null)])]) 1 ⟨some .parent, none, false⟩
        [⟨.object [("b", .null)], .null, ⟨[.name "a", .name "b"], [], [⟨0, [.name "a"]⟩]⟩⟩] :=
    List.mem_cons_self
  obtain ⟨-, hsplats⟩ := hqueries _ _ _ hcompile _ hmem rfl
  obtain ⟨candidate, hcandidate, heq⟩ := hsplats _ _ _ _ hup
  obtain rfl := List.mem_singleton.1 hcandidate
  exact ⟨htext, hsegments _ _ _ htext, hall, hsegments _ _ _ hall, _, hcompile, hmem, _, rfl, hup,
    heq⟩

end PathQuery
