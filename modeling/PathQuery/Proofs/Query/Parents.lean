import PathQuery.Proofs.Query.Resolution

/-!
# The step to the parent as an operation on answers

A step to the parent takes the answers of the chain before it one level up. Of those that
then share a path the first is kept (`firstByPath`), and of these the ones whose node, looked
up again, the step accepts (`admitted?`). `map_location_stepOut` says so of candidates and of
the paths that were already seen; `find_concat_parent` says it of answers, where the root
takes no part.
-/

namespace PathQuery.Query

open PathQuery.Tree

variable {α : Type} [Tree α]

/-! ## The parts of the step -/

/-- A location with the path of its parent. -/
def raised (location : Location) : Location := { location with path := location.path.dropLast }

/-- The locations without those that share their path with an earlier one. -/
def firstByPath (locations : List Location) : List Location :=
  locations.eraseDupsBy fun a b => a.path == b.path

/-- The location after a step with the given position, if the node there is accepted. -/
def admitted? (root : α) (index : Nat) (value : Option Pattern) (recursive : Bool)
    (location : Location) : Option Location := do
  let node ← resolve? root location.path
  let captures ← Matcher.test value (Subject.ofNode node)
  return {
    path := location.path
    captures := location.captures ++ captures
    splats := location.splats ++ if recursive then [⟨index, []⟩] else [] }

/-! ## The first location of each path -/

theorem firstByPath_cons (location : Location) (rest : List Location) :
    firstByPath (location :: rest) =
      location :: firstByPath (rest.filter fun other => other.path ≠ location.path) := by
  unfold firstByPath
  rw [List.eraseDupsBy_cons]
  simp [beq_eq_false_iff_ne]

/-- Induction along the first locations: what follows one is without its path. -/
theorem firstByPath_induction {motive : List Location → Prop} (nil : motive [])
    (cons : ∀ location rest,
      motive (rest.filter fun other => other.path ≠ location.path) → motive (location :: rest)) :
    ∀ locations, motive locations
  | [] => nil
  | location :: rest => cons location rest (firstByPath_induction nil cons _)
termination_by locations => locations.length
decreasing_by exact Nat.lt_succ_of_le (List.length_filter_le _ _)

theorem firstByPath_filter (p : List Key → Bool) (locations : List Location) :
    firstByPath (locations.filter fun location => p location.path) =
      (firstByPath locations).filter fun location => p location.path := by
  induction locations using firstByPath_induction with
  | nil => rfl
  | cons location rest ih =>
    rw [firstByPath_cons, List.filter_cons, List.filter_cons, ← ih, List.filter_filter]
    by_cases hp : p location.path = true
    · rw [if_pos hp, if_pos hp, firstByPath_cons, List.filter_filter]
      simp only [Bool.and_comm]
    · rw [if_neg hp, if_neg hp]
      congr 1
      apply List.filter_congr
      intro other _
      by_cases hother : other.path = location.path
      · simp [hother, hp]
      · simp [hother]

theorem nodup_firstByPath (locations : List Location) :
    ((firstByPath locations).map Location.path).Nodup := by
  induction locations using firstByPath_induction with
  | nil => exact List.nodup_nil
  | cons location rest ih =>
    rw [firstByPath_cons, List.map_cons, List.nodup_cons]
    refine ⟨?_, ih⟩
    intro hmem
    obtain ⟨other, hother, hpath⟩ := List.mem_map.1 hmem
    rw [firstByPath_filter fun path => path ≠ location.path, List.mem_filter] at hother
    exact absurd hpath (of_decide_eq_true hother.2)

/-! ## What is admitted -/

section Admitted

variable {root : α} {index : Nat} {value : Option Pattern} {recursive : Bool}

theorem path_of_admitted? {location after : Location}
    (h : admitted? root index value recursive location = some after) :
    after.path = location.path := by
  unfold admitted? at h
  simp only [Option.bind_eq_bind, Option.bind_eq_some_iff, Option.pure_def,
    Option.some.injEq] at h
  obtain ⟨node, -, captures, -, rfl⟩ := h
  rfl

theorem path_sublist_filterMap_admitted? (locations : List Location) :
    ((locations.filterMap (admitted? root index value recursive)).map Location.path).Sublist
      (locations.map Location.path) :=
  Matcher.map_filterMap_sublist (fun _ _ h => path_of_admitted? h) locations

/-- Whether a location is admitted is a matter of its path. -/
theorem admitted?_eq_none_of_path_eq {location other : Location}
    (h : admitted? root index value recursive location = none)
    (hpath : other.path = location.path) :
    admitted? root index value recursive other = none := by
  unfold admitted? at h ⊢
  rw [hpath]
  cases hnode : resolve? root location.path with
  | none => rfl
  | some node =>
    rw [hnode] at h
    cases hcaptures : Matcher.test value (Subject.ofNode node) with
    | none => simp [hcaptures]
    | some captures => simp [hcaptures] at h

theorem filter_filterMap_admitted? (p : List Key → Bool) (locations : List Location) :
    (locations.filterMap (admitted? root index value recursive)).filter
        (fun location => p location.path) =
      (locations.filter fun location => p location.path).filterMap
        (admitted? root index value recursive) := by
  rw [List.filter_filterMap, List.filterMap_filter]
  apply List.filterMap_congr
  intro location _
  cases h : admitted? root index value recursive location with
  | none => simp
  | some after => simp [Option.filter, path_of_admitted? h]

end Admitted

/-! ## The step -/

/-- The location one level up is the admitted one among the locations of the parent. The holder
that is looked up as well is found whenever the node is. -/
theorem map_location_parent? (root : α) (index : Nat) (value : Option Pattern) (recursive : Bool)
    (location : Location) :
    (parent? root index ⟨some .parent, value, recursive⟩ location).map Candidate.location =
      admitted? root index value recursive (raised location) := by
  unfold parent? admitted? holderAndNode? Matcher.matchValue raised
  dsimp only
  cases hnode : resolve? root location.path.dropLast with
  | none => rfl
  | some node =>
    obtain ⟨holder, hholder⟩ : ∃ holder,
        resolve? root location.path.dropLast.dropLast = some holder := by
      rcases List.eq_nil_or_concat location.path.dropLast with hnil | ⟨above, key, habove⟩
      · exact ⟨root, by rw [hnil]; rfl⟩
      · rw [habove, List.concat_eq_append, resolve?_concat, Option.bind_eq_some_iff] at hnode
        obtain ⟨holder, hholder, -⟩ := hnode
        exact ⟨holder, by rw [habove, List.concat_eq_append, List.dropLast_concat, hholder]⟩
    simp only [hholder, Option.bind_eq_bind, Option.bind_some, Option.pure_def]
    cases Matcher.test value (Subject.ofNode node) <;> rfl

theorem map_location_stepOut (root : α) (index : Nat) (value : Option Pattern) (recursive : Bool)
    (seen : List (List Key)) (candidates : List (Candidate α)) :
    (stepOut root index ⟨some .parent, value, recursive⟩ seen candidates).map
        Candidate.location =
      ((firstByPath (((candidates.map Candidate.location).filter
          fun location => location.path ≠ []).map raised)).filter
            fun location => location.path ∉ seen).filterMap
              (admitted? root index value recursive) := by
  induction candidates generalizing seen with
  | nil => rfl
  | cons candidate rest ih =>
    have hup := map_location_parent? root index value recursive candidate.location
    unfold stepOut
    dsimp only
    rw [List.map_cons, List.filter_cons]
    by_cases hroot : candidate.location.path = []
    · rw [if_pos (by simp [hroot]), if_neg (by simp [hroot]), ih]
    have hkept : decide (candidate.location.path ≠ []) = true := decide_eq_true hroot
    rw [if_pos hkept, List.map_cons, firstByPath_cons,
      firstByPath_filter fun path => path ≠ (raised candidate.location).path,
      List.filter_cons, List.filter_filter]
    by_cases hseen : candidate.location.path.dropLast ∈ seen
    · -- the path was taken before
      rw [if_pos (by simp [hseen]), if_neg (by simp [raised, hseen]), ih]
      congr 1
      apply List.filter_congr
      intro other _
      by_cases hother : other.path = (raised candidate.location).path
      · simp [hother, raised, hseen]
      · simp [hother]
    rw [if_neg (by simp [hroot, hseen]), if_pos (by simp [raised, hseen])]
    cases hparent : parent? root index ⟨some .parent, value, recursive⟩ candidate.location with
    | some up =>
      rw [hparent, Option.map_some] at hup
      rw [List.map_cons, ih, List.filterMap_cons_some hup.symm]
      congr 2
      apply List.filter_congr
      intro other _
      by_cases hother : other.path = (raised candidate.location).path
      · simp [hother, raised]
      · have hne : other.path ≠ candidate.location.path.dropLast := hother
        simp [hother, hne]
    | none =>
      -- no later candidate with this parent is admitted either
      rw [hparent, Option.map_none] at hup
      rw [ih, List.filterMap_cons_none hup.symm]
      rw [List.filterMap_filter, List.filterMap_filter]
      apply List.filterMap_congr
      intro other _
      by_cases hother : other.path = (raised candidate.location).path
      · simp [admitted?_eq_none_of_path_eq hup.symm hother]
      · simp [hother]

/-! ## Answers -/

omit [Tree α] in
/-- The answers are the candidates other than the root. -/
theorem map_location_filterMap_answer? (candidates : List (Candidate α)) :
    (candidates.filterMap answer?).map Answer.location =
      (candidates.map Candidate.location).filter fun location => location.path ≠ [] := by
  induction candidates with
  | nil => rfl
  | cons candidate rest ih =>
    rw [List.map_cons, List.filter_cons]
    cases hlast : candidate.location.path.getLast? with
    | none =>
      have hnone : answer? candidate = none := by rw [answer?, hlast]; rfl
      have hempty := List.getLast?_eq_none_iff.1 hlast
      rw [List.filterMap_cons_none hnone, ih, if_neg (by simp [hempty])]
    | some key =>
      have hsome : answer? candidate = some ⟨candidate.holder, key, candidate.location⟩ := by
        rw [answer?, hlast]; rfl
      have hne : candidate.location.path ≠ [] := by
        intro hempty
        rw [hempty] at hlast
        cases hlast
      rw [List.filterMap_cons_some hsome, List.map_cons, ih, if_pos (by simp [hne])]

theorem map_location_find (ms : List Matcher) (root : α) :
    (find ⟨ms⟩ root).map Answer.location =
      ((run root 0 ms [start root]).map Candidate.location).filter
        fun location => location.path ≠ [] :=
  map_location_filterMap_answer? _

/-- **The step to the parent.** Its answers are those of the chain before it, one level up and
without the root; of those that share a path the first, if its node is accepted, with the texts
captured there and, for a recursive step, an empty splat. No two of them have one path. In a
consistent document all the nodes are found, so that a step without a value accepts each. -/
theorem find_concat_parent (root : α) (ms : List Matcher) (value : Option Pattern)
    (recursive : Bool) :
    (find ⟨ms ++ [⟨some .parent, value, recursive⟩]⟩ root).map Answer.location =
        (firstByPath ((((find ⟨ms⟩ root).map Answer.location).map raised).filter
          fun location => location.path ≠ [])).filterMap
            (admitted? root ms.length value recursive) ∧
      ((find ⟨ms ++ [⟨some .parent, value, recursive⟩]⟩ root).map
        fun answer => answer.location.path).Nodup ∧
      (Consistent root → ∀ answer ∈ find ⟨ms⟩ root,
        (resolve? root answer.location.path.dropLast).isSome) := by
  have hfind : (find ⟨ms ++ [⟨some .parent, value, recursive⟩]⟩ root).map Answer.location =
      (firstByPath ((((find ⟨ms⟩ root).map Answer.location).map raised).filter
        fun location => location.path ≠ [])).filterMap
          (admitted? root ms.length value recursive) := by
    have hstep : step root (0 + ms.length) ⟨some .parent, value, recursive⟩
        (run root 0 ms [start root]) =
          stepOut root ms.length ⟨some .parent, value, recursive⟩ []
            (run root 0 ms [start root]) := by
      rw [Nat.zero_add, step_of_isParent rfl]
    rw [map_location_find, run_concat, hstep, map_location_stepOut, map_location_find,
      filter_filterMap_admitted? fun path => path ≠ [], List.filter_filter,
      firstByPath_filter fun path => path ≠ []]
    simp
  refine ⟨hfind, ?_, ?_⟩
  · rw [← Function.comp_def Location.path, ← List.map_map, hfind]
    exact ((path_sublist_filterMap_admitted? _).nodup (nodup_firstByPath _))
  · intro hc answer hmem
    obtain ⟨candidate, hcandidate, hanswer⟩ := mem_find_iff.1 hmem
    obtain ⟨-, -, hlocation⟩ := answer?_eq_some_iff.1 hanswer
    have hsound := sound_of_mem_run hc ms 0 (sound_of_mem_start root) hcandidate
    rw [← hlocation, hsound.holder.resolve?_eq hc]
    rfl

/-- Two siblings share one parent, and the first of them decides on its splats. Where a name comes
twice, the path to an entry's parent leads to the first value of that name, here a text that the
value of the step rejects for one parent and captures a part of for the other. -/
theorem find_concat_parent_siblings :
    (Consistent (Json.object [("a", .object [("b", .null), ("c", .null)])]) ∧
      (find ⟨[⟨some (.literal "a"), none, false⟩, ⟨none, none, true⟩] ++
          [⟨some .parent, none, true⟩]⟩
        (Json.object [("a", .object [("b", .null), ("c", .null)])])).map Answer.location =
          [⟨[.name "a"], [], [⟨1, [.name "b"]⟩, ⟨2, []⟩]⟩] ∧
      ∀ answer ∈ find ⟨[⟨some (.literal "a"), none, false⟩, ⟨none, none, true⟩]⟩
          (Json.object [("a", .object [("b", .null), ("c", .null)])]),
        (resolve? (Json.object [("a", .object [("b", .null), ("c", .null)])])
          answer.location.path.dropLast).isSome) ∧
      (find ⟨[⟨none, none, false⟩, ⟨some (.literal "c"), none, false⟩] ++
          [⟨some .parent,
            some (.regex (Regex.compiled (.cat (.char 'y') (.group .anyRun)) {}) {}), true⟩]⟩
        (Json.object [("a", .string "no"), ("a", .object [("c", .null)]), ("b", .string "yes"),
          ("b", .object [("c", .null)])])).map Answer.location =
        [⟨[.name "b"], ["es"], [⟨2, []⟩]⟩] := by
  have hc : Coherent (Json.object [("a", .object [("b", .null), ("c", .null)])]) := by decide
  obtain ⟨hfind, -, hfound⟩ :=
    find_concat_parent (Json.object [("a", .object [("b", .null), ("c", .null)])])
      [⟨some (.literal "a"), none, false⟩, ⟨none, none, true⟩] none true
  refine ⟨⟨hc.consistent, ?_, hfound hc.consistent⟩, ?_⟩
  · rw [hfind]
    decide +kernel
  · rw [(find_concat_parent _ _ _ _).1]
    decide +kernel

end PathQuery.Query
