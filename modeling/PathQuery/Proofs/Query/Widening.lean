import Mathlib.Data.List.Flatten
import PathQuery.Proofs.Query.FlagSets

/-!
# More flags, more answers

Under more base flags each pattern of a chain accepts more. Without captures, which may change,
the hits of a matcher are then among those of the wider one, in the same order
(`bare_hits_sublist`), and so are the candidates after a chain without steps to the parent
(`bare_run_sublist`). A step to the parent keeps the first candidate of each path, which may be
another one among more, so of chains with such steps only the places are kept
(`Covered.run`). Both together are `find_of_le`.
-/

namespace PathQuery

open PathQuery.Tree

variable {α : Type} [Tree α]

/-! ## Locations without captures -/

/-- A hit without its captures. -/
def Hit.bare (hit : Hit α) : Hit α := { hit with captures := [] }

def Location.bare (location : Location) : Location := { location with captures := [] }

/-- A candidate without its captures. -/
def Candidate.bare (candidate : Candidate α) : Candidate α :=
  { candidate with location := candidate.location.bare }

/-- Where an answer is and what recursive searches went through to it, without captures. -/
def Answer.trail (answer : Answer α) : List Key × List Splat :=
  (answer.location.path, answer.location.splats)

/-! ## Hits -/

namespace Matcher

variable {m n : Matcher}

theorem isSome_test_of_widens {p q : Option Pattern} (h : Option.Rel Pattern.Widens p q)
    {subject : Subject} (hsubject : ∀ other, subject ≠ .pattern other)
    (hsome : (test p subject).isSome) : (test q subject).isSome := by
  cases h with
  | none => exact hsome
  | some hwidens => exact hwidens.isSome hsubject hsome

theorem isSome_matchEntry_iff {key : Key} {node : α} :
    (m.matchEntry key node).isSome ↔
      (test m.key (.key key)).isSome ∧ (m.matchValue node).isSome := by
  unfold matchEntry
  cases test m.key (.key key) with
  | none => simp
  | some ofKey =>
    cases m.matchValue node with
    | none => simp
    | some ofValue => simp

/-- The hits of a matcher without their captures are the visits that it accepts. -/
theorem bare_hits_eq (m : Matcher) (node : α) :
    (m.hits node).map Hit.bare =
      ((m.reach node).filter fun visit => (m.matchEntry visit.key visit.node).isSome).map
        fun visit => ⟨visit.holder, visit.key, visit.node, visit.path, [], m.splatOf visit⟩ := by
  rw [hits_eq, List.map_filterMap, ← List.filterMap_eq_map', ← List.filterMap_eq_filter,
    List.filterMap_filterMap]
  refine List.filterMap_congr fun visit _ => ?_
  unfold hit?
  cases hentry : m.matchEntry visit.key visit.node <;> simp [Option.guard, hentry, Hit.bare]

namespace Related

variable (h : Related Pattern.Widens m n)

include h

omit [Tree α] in
theorem splatOf_eq (visit : Visit α) : m.splatOf visit = n.splatOf visit := by
  unfold splatOf
  rw [h.recursive, h.isNone_eq]

theorem isSome_matchValue {node : α} (hsome : (m.matchValue node).isSome) :
    (n.matchValue node).isSome :=
  isSome_test_of_widens h.value (ofNode_ne_pattern node) hsome

/-- A wider matcher has all the hits of a narrower one, in the same order. -/
theorem bare_hits_sublist (node : α) :
    ((m.hits node).map Hit.bare).Sublist ((n.hits node).map Hit.bare) := by
  rw [bare_hits_eq, bare_hits_eq]
  have hreach : m.reach node = n.reach node := by
    unfold reach
    rw [h.recursive]
  simp only [hreach, h.splatOf_eq]
  refine (List.monotone_filter_right _ fun visit hsome => ?_).map _
  obtain ⟨hkey, hvalue⟩ := isSome_matchEntry_iff.1 hsome
  exact isSome_matchEntry_iff.2
    ⟨isSome_test_of_widens h.key nofun hkey, h.isSome_matchValue hvalue⟩

end Related

end Matcher

namespace Query

variable {m n : Matcher} {candidates others : List (Candidate α)}

/-! ## Chains without steps to the parent -/

theorem bare_stepInto (index : Nat) (m : Matcher) (candidates : List (Candidate α)) :
    (stepInto index m candidates).map Candidate.bare =
      (candidates.map Candidate.bare).flatMap fun candidate =>
        ((m.hits candidate.node).map Hit.bare).map (extend index candidate.location) := by
  unfold stepInto
  rw [List.map_flatMap, List.flatMap_map]
  congr 1
  funext candidate
  rw [List.map_map, List.map_map]
  rfl

theorem bare_stepInto_sublist (h : m.Related Pattern.Widens n) (index : Nat)
    (hcandidates : (candidates.map Candidate.bare).Sublist (others.map Candidate.bare)) :
    ((stepInto index m candidates).map Candidate.bare).Sublist
      ((stepInto index n others).map Candidate.bare) := by
  rw [bare_stepInto, bare_stepInto]
  exact (hcandidates.flatMap _).trans
    (List.Sublist.flatMap_right _ fun candidate _ => (h.bare_hits_sublist candidate.node).map _)

theorem bare_run_sublist {ms ns : List Matcher}
    (h : List.Forall₂ (Matcher.Related Pattern.Widens) ms ns)
    (hparent : ∀ m ∈ ms, m.isParent = false) (root : α) (index : Nat)
    (hcandidates : (candidates.map Candidate.bare).Sublist (others.map Candidate.bare)) :
    ((run root index ms candidates).map Candidate.bare).Sublist
      ((run root index ns others).map Candidate.bare) := by
  induction h generalizing index candidates others with
  | nil => exact hcandidates
  | @cons m n ms ns hm _ ih =>
    obtain ⟨hmparent, hrest⟩ := List.forall_mem_cons.1 hparent
    have hnparent : n.isParent = false := hm.isParent_eq Pattern.Widens.isParent ▸ hmparent
    rw [run_cons, run_cons, step_of_not_isParent hmparent, step_of_not_isParent hnparent]
    exact ih hrest (index + 1) (bare_stepInto_sublist hm index hcandidates)

/-! ## Chains with steps to the parent -/

/-- Each candidate of the first list has one in the second at the same place. -/
def Covered (candidates others : List (Candidate α)) : Prop :=
  ∀ candidate ∈ candidates, ∃ other ∈ others,
    other.location.path = candidate.location.path ∧ other.node = candidate.node

theorem Covered.stepInto (h : m.Related Pattern.Widens n) (index : Nat)
    (hcovered : Covered candidates others) :
    Covered (stepInto index m candidates) (stepInto index n others) := by
  intro next hnext
  obtain ⟨candidate, hmem, hit, hhit, rfl⟩ := mem_stepInto_iff.1 hnext
  obtain ⟨other, hother, hpath, hnode⟩ := hcovered candidate hmem
  have hbare := (h.bare_hits_sublist candidate.node).subset (List.mem_map_of_mem hhit)
  obtain ⟨hit', hhit', heq⟩ := List.mem_map.1 hbare
  rw [← hnode] at hhit'
  obtain ⟨-, -, hitnode, hitpath, -⟩ := Hit.mk.inj heq
  refine ⟨_, mem_stepInto_iff.2 ⟨other, hother, hit', hhit', rfl⟩, ?_, hitnode⟩
  rw [extend, extend, hpath, hitpath]

/-- A step to the parent keeps a candidate for every path that it leads to and has not seen. -/
theorem exists_mem_stepOut_of_parent? {root : α} {index : Nat} {seen : List (List Key)}
    {candidate up : Candidate α} (hmem : candidate ∈ candidates)
    (hne : candidate.location.path ≠ []) (hup : parent? root index m candidate.location = some up)
    (hseen : candidate.location.path.dropLast ∉ seen) :
    ∃ next ∈ stepOut root index m seen candidates,
      next.location.path = candidate.location.path.dropLast := by
  induction candidates generalizing seen with
  | nil => cases hmem
  | cons first rest ih =>
    rcases List.mem_cons.1 hmem with rfl | hrest
    · have hkeep : (candidate.location.path.isEmpty ||
          seen.contains candidate.location.path.dropLast) = false := by
        simp [hne, hseen]
      obtain ⟨captures, -, -, -, hlocation⟩ := parent?_eq_some_iff.1 hup
      refine ⟨up, ?_, congrArg Location.path hlocation⟩
      unfold stepOut
      simp only [hkeep, hup]
      exact List.mem_cons_self
    · unfold stepOut
      dsimp only
      split
      · exact ih hrest hseen
      · split
        · rename_i above habove
          by_cases hsame : candidate.location.path.dropLast = first.location.path.dropLast
          · obtain ⟨captures, -, -, -, hlocation⟩ := parent?_eq_some_iff.1 habove
            refine ⟨above, List.mem_cons_self, ?_⟩
            rw [hlocation, hsame, Location.up]
          · obtain ⟨next, hnext, hpath⟩ := ih hrest (mt List.mem_cons.1 (not_or.2 ⟨hsame, hseen⟩))
            exact ⟨next, List.mem_cons_of_mem _ hnext, hpath⟩
        · exact ih hrest hseen

/-- A candidate that a step to the parent keeps has the node at its path. -/
theorem resolve?_of_mem_stepOut {root : α} {index : Nat} {seen : List (List Key)}
    {up : Candidate α} (h : up ∈ stepOut root index m seen candidates) :
    resolve? root up.location.path = some up.node := by
  obtain ⟨candidate, -, -, hup⟩ := exists_of_mem_stepOut h
  obtain ⟨captures, -, hnode, -, hlocation⟩ := parent?_eq_some_iff.1 hup
  rw [hlocation]
  exact hnode

theorem Covered.stepOut (h : m.Related Pattern.Widens n) (root : α) (index : Nat)
    (hcovered : Covered candidates others) :
    Covered (stepOut root index m [] candidates) (stepOut root index n [] others) := by
  intro up hmem
  obtain ⟨candidate, hcandidate, hne, hup⟩ := exists_of_mem_stepOut hmem
  obtain ⟨captures, hcaptures, hnode, hholder, hlocation⟩ := parent?_eq_some_iff.1 hup
  obtain ⟨other, hother, hpath, -⟩ := hcovered candidate hcandidate
  -- the wider step accepts the node as well, perhaps with other captures
  obtain ⟨texts, htexts⟩ :=
    Option.isSome_iff_exists.1 (h.isSome_matchValue (Option.isSome_of_mem hcaptures))
  rw [← hpath] at hnode hholder hne
  have hup' : parent? root index n other.location =
      some ⟨up.holder, up.node, Location.up index n other.location texts⟩ :=
    parent?_eq_some_iff.2 ⟨texts, htexts, hnode, hholder, rfl⟩
  obtain ⟨next, hnext, hnextpath⟩ :=
    exists_mem_stepOut_of_parent? hother hne hup' List.not_mem_nil
  have hnextnode := resolve?_of_mem_stepOut hnext
  rw [hnextpath, hnode] at hnextnode
  refine ⟨next, hnext, ?_, (Option.some.inj hnextnode).symm⟩
  rw [hnextpath, hpath, hlocation, Location.up]

theorem Covered.step (h : m.Related Pattern.Widens n) (root : α) (index : Nat)
    (hcovered : Covered candidates others) :
    Covered (step root index m candidates) (step root index n others) := by
  unfold Query.step
  rw [h.isParent_eq Pattern.Widens.isParent]
  split
  · exact hcovered.stepOut h root index
  · exact hcovered.stepInto h index

/-- A wider chain keeps a candidate at every place where a narrower one does. -/
theorem Covered.run {ms ns : List Matcher}
    (h : List.Forall₂ (Matcher.Related Pattern.Widens) ms ns) (root : α) (index : Nat)
    (hcovered : Covered candidates others) :
    Covered (run root index ms candidates) (run root index ns others) := by
  induction h generalizing index candidates others with
  | nil => exact hcovered
  | cons hm _ ih => exact ih (index + 1) (hcovered.step hm root index)

/-! ## Answers -/

variable {query query' : Query}

omit [Tree α] in
/-- The trails of the answers among candidates, of which captures are no part. -/
theorem map_trail_bare (candidates : List (Candidate α)) :
    (candidates.filterMap answer?).map Answer.trail =
      ((candidates.map Candidate.bare).filterMap answer?).map Answer.trail := by
  rw [List.filterMap_map, List.map_filterMap, List.map_filterMap]
  refine List.filterMap_congr fun candidate _ => ?_
  rw [Function.comp_apply, answer?, answer?, Option.map_map, Option.map_map]
  rfl

theorem exists_mem_find_of_widens
    (h : List.Forall₂ (Matcher.Related Pattern.Widens) query.matchers query'.matchers) {root : α}
    {answer : Answer α} (hmem : answer ∈ find query root) :
    ∃ answer' ∈ find query' root, answer'.location.path = answer.location.path := by
  obtain ⟨candidate, hcandidate, hanswer⟩ := mem_find_iff.1 hmem
  obtain ⟨hlast, -, hlocation⟩ := answer?_eq_some_iff.1 hanswer
  have hstart : Covered [start root] [start root] := fun c hc => ⟨c, hc, rfl, rfl⟩
  obtain ⟨other, hother, hpath, -⟩ := hstart.run h root 0 candidate hcandidate
  rw [← hpath] at hlast
  refine ⟨⟨other.holder, answer.key, other.location⟩, mem_find_iff.2 ⟨other, hother, ?_⟩, ?_⟩
  · exact answer?_eq_some_iff.2 ⟨hlast, rfl, rfl⟩
  · exact hpath.trans (congrArg Location.path hlocation)

theorem map_trail_find_sublist
    (h : List.Forall₂ (Matcher.Related Pattern.Widens) query.matchers query'.matchers)
    (hparent : ∀ m ∈ query.matchers, m.isParent = false) (root : α) :
    ((find query root).map Answer.trail).Sublist ((find query' root).map Answer.trail) := by
  unfold find
  rw [map_trail_bare (run root 0 query.matchers _), map_trail_bare (run root 0 query'.matchers _)]
  exact ((bare_run_sublist h hparent root 0 (List.Sublist.refl _)).filterMap _).map _

/-- **Flags only add answers.** Under more base flags, where unset ones are none, a path has the
same error or again compiles, if the engine has room for the expressions, and every path that was
found is found again. Without a step to the parent the paths and splats that were found are even a
part of those found now, in their order. -/
theorem find_of_le [Regex.Engine] (path : String) (flags flags' : Option Flags)
    (h : flags.getD .empty ≤ flags'.getD .empty)
    (hsize : WithinSize (compile path flags)) (hsize' : WithinSize (compile path flags')) :
    (∃ error, compile path flags = .error error ∧ compile path flags' = .error error) ∨
      ∃ query query', compile path flags = .ok query ∧ compile path flags' = .ok query' ∧
        query.FromSource ∧ query'.FromSource ∧
        ∀ {α : Type} [Tree α] (root : α),
          (∀ answer ∈ find query root,
            ∃ answer' ∈ find query' root, answer'.location.path = answer.location.path) ∧
          ((∀ m ∈ query.matchers, m.isParent = false) →
            ((find query root).map Answer.trail).Sublist
              ((find query' root).map Answer.trail)) := by
  have hadded := Path.addFlags_le_addFlags (Path.written path.toList) h
  rw [← Path.getD_flagsOf, ← Path.getD_flagsOf] at hadded
  have houtcome := sameOutcome_compile path (Matcher.tokensAgree_widens hadded)
  refine (houtcome.error_or_ok hsize hsize').imp_right ?_
  rintro ⟨query, query', hquery, hquery', hrelated⟩
  refine ⟨query, query', hquery, hquery', compile_fromSource hquery, compile_fromSource hquery',
    fun root => ⟨fun answer hmem => exists_mem_find_of_widens hrelated hmem, fun hparent => ?_⟩⟩
  exact map_trail_find_sublist hrelated hparent root

/-- A wildcard that comes to cover a line end, after a letter that comes to match up to case. -/
theorem find_of_le_lines :
    (none : Option Flags).getD .empty ≤
        (some { ignoreCase := true, multiline := true }).getD .empty ∧
      WithinSize (compile "**/a*b" none) ∧
      WithinSize (compile "**/a*b" (some { ignoreCase := true, multiline := true })) ∧
      ∃ root : Json, root = .array [.object [("A\nB", .null), ("a-b", .object [("ab", .null)])]] ∧
      ∃ query query', compile "**/a*b" none = .ok query ∧
        compile "**/a*b" (some { ignoreCase := true, multiline := true }) = .ok query' ∧
        (∀ m ∈ query.matchers, m.isParent = false) ∧
        (find query root).map Answer.trail =
          [([.index 0, .name "a-b"], [⟨0, [.index 0]⟩]),
            ([.index 0, .name "a-b", .name "ab"], [⟨0, [.index 0, .name "a-b"]⟩])] ∧
        (find query' root).length = 3 ∧
        ((find query root).map Answer.trail).Sublist ((find query' root).map Answer.trail) := by
  have hle : (none : Option Flags).getD .empty ≤
      (some { ignoreCase := true, multiline := true }).getD .empty :=
    ⟨by decide, by decide, by decide⟩
  have hfound : ((compile "**/a*b" none).toOption.map fun query =>
      ((find query (Json.array [.object [("A\nB", .null), ("a-b", .object [("ab", .null)])]])).map
        Answer.trail, decide (∀ m ∈ query.matchers, m.isParent = false))) =
      some ([([.index 0, .name "a-b"], [⟨0, [.index 0]⟩]),
        ([.index 0, .name "a-b", .name "ab"], [⟨0, [.index 0, .name "a-b"]⟩])], true) := by
    decide +kernel
  have hadded : ((compile "**/a*b"
      (some { ignoreCase := true, multiline := true })).toOption.map fun query =>
        (find query (Json.array
          [.object [("A\nB", .null), ("a-b", .object [("ab", .null)])]])).length) = some 3 := by
    decide +kernel
  have hsize : WithinSize (compile "**/a*b" none) := withinSize_of_isOk (by decide +kernel)
  have hsize' : WithinSize
      (compile "**/a*b" (some { ignoreCase := true, multiline := true })) :=
    withinSize_of_isOk (by decide +kernel)
  obtain ⟨error, herror, -⟩ | ⟨query, query', hquery, hquery', -, -, hfind⟩ :=
    find_of_le "**/a*b" _ _ hle hsize hsize'
  · rw [herror] at hfound
    cases hfound
  · rw [hquery] at hfound
    rw [hquery'] at hadded
    obtain ⟨htrails, hparent⟩ := Prod.mk.inj (Option.some.inj hfound)
    replace hparent := of_decide_eq_true hparent
    exact ⟨hle, hsize, hsize', _, rfl, query, query', hquery, hquery', hparent, htrails,
      Option.some.inj hadded, (hfind _).2 hparent⟩

end Query

end PathQuery
