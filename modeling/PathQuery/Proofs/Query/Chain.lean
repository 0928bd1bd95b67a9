import PathQuery.Proofs.Matcher.Hits
import PathQuery.Query

/-!
# Chains of steps

A chain runs in parts (`run_append`), and one without steps to the parent runs for
each candidate apart (`run_eq_flatMap`).
-/

namespace PathQuery

theorem Matcher.eq_of_isParent {m : Matcher} (h : m.isParent = true) :
    ∃ value recursive, m = ⟨some .parent, value, recursive⟩ := by
  obtain ⟨key, value, recursive⟩ := m
  cases key with
  | none => cases h
  | some p =>
    cases p with
    | parent => exact ⟨value, recursive, rfl⟩
    | _ => cases h

namespace Query

variable {α : Type} [Tree α]

@[simp] theorem run_nil (root : α) (index : Nat) (candidates : List (Candidate α)) :
    run root index [] candidates = candidates := rfl

@[simp] theorem run_cons (root : α) (index : Nat) (m : Matcher) (ms : List Matcher)
    (candidates : List (Candidate α)) :
    run root index (m :: ms) candidates =
      run root (index + 1) ms (step root index m candidates) := rfl

/-- A chain in two parts. -/
theorem run_append (root : α) (index : Nat) (ms ns : List Matcher)
    (candidates : List (Candidate α)) :
    run root index (ms ++ ns) candidates =
      run root (index + ms.length) ns (run root index ms candidates) := by
  induction ms generalizing index candidates with
  | nil => rfl
  | cons m ms ih =>
    rw [List.cons_append, run_cons, run_cons, ih, List.length_cons, Nat.add_right_comm,
      Nat.add_assoc]

theorem step_of_not_isParent {m : Matcher} (h : m.isParent = false) (root : α) (index : Nat)
    (candidates : List (Candidate α)) :
    step root index m candidates = stepInto index m candidates := by
  unfold step
  rw [h]
  rfl

theorem step_of_isParent {m : Matcher} (h : m.isParent = true) (root : α) (index : Nat)
    (candidates : List (Candidate α)) :
    step root index m candidates = stepOut root index m [] candidates := by
  unfold step
  rw [if_pos h]

theorem stepInto_singleton (index : Nat) (m : Matcher) (candidate : Candidate α) :
    stepInto index m [candidate] =
      (m.hits candidate.node).map (extend index candidate.location) := by
  rw [stepInto, List.flatMap_singleton]

/-- Without steps to the parent candidates do not meet again. -/
theorem run_eq_flatMap {ms : List Matcher} (h : ∀ m ∈ ms, m.isParent = false) (root : α)
    (index : Nat) (candidates : List (Candidate α)) :
    run root index ms candidates =
      candidates.flatMap fun candidate => run root index ms [candidate] := by
  induction ms generalizing index candidates with
  | nil => simp
  | cons m ms ih =>
    have hm := h m List.mem_cons_self
    have hms := fun m' hm' => h m' (List.mem_cons_of_mem m hm')
    simp only [run_cons, step_of_not_isParent hm]
    rw [ih hms, stepInto, List.flatMap_assoc]
    congr 1
    funext candidate
    rw [stepInto_singleton, ← ih hms]

/-- One matcher before a chain without steps to the parent: the rest runs from each hit. -/
theorem run_cons_singleton {m : Matcher} {ms : List Matcher} (hm : m.isParent = false)
    (hms : ∀ m' ∈ ms, m'.isParent = false) (root : α) (index : Nat) (candidate : Candidate α) :
    run root index (m :: ms) [candidate] =
      (m.hits candidate.node).flatMap fun hit =>
        run root (index + 1) ms [extend index candidate.location hit] := by
  rw [run_cons, step_of_not_isParent hm, stepInto_singleton, run_eq_flatMap hms,
    List.flatMap_map]

theorem run_concat (root : α) (index : Nat) (ms : List Matcher) (m : Matcher)
    (candidates : List (Candidate α)) :
    run root index (ms ++ [m]) candidates =
      step root (index + ms.length) m (run root index ms candidates) := by
  rw [run_append, run_cons, run_nil]

theorem mem_stepInto_iff {index : Nat} {m : Matcher} {candidates : List (Candidate α)}
    {next : Candidate α} :
    next ∈ stepInto index m candidates ↔ ∃ candidate ∈ candidates,
      ∃ hit ∈ m.hits candidate.node, next = extend index candidate.location hit := by
  simp only [stepInto, List.mem_flatMap, List.mem_map, eq_comm]

/-- After a step that is not to the parent no candidate is the root. -/
theorem path_ne_nil_of_mem_run {ms : List Matcher} (hne : ms ≠ [])
    (h : ∀ m ∈ ms, m.isParent = false) {root : α} {index : Nat}
    {candidates : List (Candidate α)} {next : Candidate α}
    (hnext : next ∈ run root index ms candidates) : next.location.path ≠ [] := by
  rcases List.eq_nil_or_concat ms with rfl | ⟨init, last, rfl⟩
  · exact absurd rfl hne
  · rw [List.concat_eq_append] at hnext h
    have hlast := h last (List.mem_append_right _ List.mem_cons_self)
    rw [run_concat, step_of_not_isParent hlast, mem_stepInto_iff] at hnext
    obtain ⟨candidate, -, hit, hhit, rfl⟩ := hnext
    exact List.append_ne_nil_of_right_ne_nil _ (Matcher.leads_of_mem_hits hhit).1

/-- Each step of a chain without recursive steps and steps to the parent adds one key. -/
theorem length_path_of_mem_run {ms : List Matcher}
    (h : ∀ m ∈ ms, m.isParent = false ∧ m.recursive = false) {root : α} {index : Nat}
    {candidates : List (Candidate α)} {n : Nat}
    (hn : ∀ candidate ∈ candidates, candidate.location.path.length = n) {next : Candidate α}
    (hnext : next ∈ run root index ms candidates) : next.location.path.length = n + ms.length := by
  induction ms generalizing index candidates n with
  | nil => exact hn next hnext
  | cons m ms ih =>
    obtain ⟨hparent, hrecursive⟩ := h m List.mem_cons_self
    rw [run_cons, step_of_not_isParent hparent] at hnext
    rw [List.length_cons, Nat.add_comm ms.length, ← Nat.add_assoc]
    refine ih (fun m' hm' => h m' (List.mem_cons_of_mem m hm')) ?_ hnext
    intro candidate hcandidate
    obtain ⟨before, hbefore, hit, hhit, rfl⟩ := mem_stepInto_iff.1 hcandidate
    rw [extend, List.length_append, hn before hbefore,
      Matcher.length_path_of_mem_hits hrecursive hhit]

/-! ## Answers -/

omit [Tree α] in
theorem answer?_eq_some_iff {candidate : Candidate α} {answer : Answer α} :
    answer? candidate = some answer ↔
      candidate.location.path.getLast? = some answer.key ∧
        candidate.holder = answer.holder ∧ candidate.location = answer.location := by
  obtain ⟨holder, key, location⟩ := answer
  rw [answer?, Option.map_eq_some_iff]
  constructor
  · rintro ⟨last, hlast, heq⟩
    cases heq
    exact ⟨hlast, rfl, rfl⟩
  · rintro ⟨hlast, rfl, rfl⟩
    exact ⟨key, hlast, rfl⟩

theorem mem_find_iff {query : Query} {root : α} {answer : Answer α} :
    answer ∈ query.find root ↔
      ∃ candidate ∈ run root 0 query.matchers [start root], answer? candidate = some answer := by
  rw [find, List.mem_filterMap]

/-- The locations of answers are among those that the chain leads to, in order. -/
theorem map_find_sublist {β : Type} (f : Location → β) (ms : List Matcher) (root : α) :
    ((find ⟨ms⟩ root).map fun answer => f answer.location).Sublist
      ((run root 0 ms [start root]).map fun candidate => f candidate.location) := by
  refine Matcher.map_filterMap_sublist ?_ (run root 0 ms [start root])
  intro candidate answer h
  rw [(answer?_eq_some_iff.1 h).2.2]

omit [Tree α] in
/-- Where no candidate is the root, each is an answer. -/
theorem location_filterMap_answer? {candidates : List (Candidate α)}
    (h : ∀ candidate ∈ candidates, candidate.location.path ≠ []) :
    (candidates.filterMap answer?).map Answer.location = candidates.map Candidate.location := by
  induction candidates with
  | nil => rfl
  | cons candidate rest ih =>
    have hne := h candidate List.mem_cons_self
    have hlast := List.getLast?_eq_some_getLast hne
    have hsome : answer? candidate =
        some ⟨candidate.holder, candidate.location.path.getLast hne, candidate.location⟩ :=
      answer?_eq_some_iff.2 ⟨hlast, rfl, rfl⟩
    rw [List.filterMap_cons_some hsome, List.map_cons, List.map_cons,
      ih fun c hc => h c (List.mem_cons_of_mem _ hc)]

end Query

end PathQuery
