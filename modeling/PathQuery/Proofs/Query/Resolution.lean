import PathQuery.Proofs.Query.Chain
import PathQuery.Proofs.Tree.Documents

/-!
# Candidates and the places they stand for

A candidate holds a path, the node it leads to and the node one level up. Every step
keeps the three in agreement with the root (`Candidate.Sound`, `sound_of_mem_run`), so
every answer's path resolves, to the node that its holder has under its key
(`find_resolves`).
-/

namespace PathQuery

open PathQuery.Tree

variable {α : Type} [Tree α]

/-- The nodes of a candidate are those that its path leads to, and its path without the last
key; the root is its own holder. -/
structure Candidate.Sound (root : α) (candidate : Candidate α) : Prop where
  node : Leads root candidate.location.path candidate.node
  holder : Leads root candidate.location.path.dropLast candidate.holder

namespace Query

variable {root : α}

theorem sound_of_mem_start (root : α) : ∀ candidate ∈ [start root], candidate.Sound root := by
  intro candidate hmem
  rw [List.mem_singleton.1 hmem]
  exact ⟨.here root, .here root⟩

theorem sound_extend {index : Nat} {m : Matcher} {candidate : Candidate α} {hit : Hit α}
    (h : candidate.Sound root) (hhit : hit ∈ m.hits candidate.node) :
    (extend index candidate.location hit).Sound root := by
  obtain ⟨hne, hnode, hholder⟩ := Matcher.leads_of_mem_hits hhit
  refine ⟨h.node.trans hnode, ?_⟩
  rw [extend, List.dropLast_append_of_ne_nil hne]
  exact h.node.trans hholder

/-! ## The step to the parent -/

theorem holderAndNode?_eq_some_iff {path : List Key} {holder node : α} :
    holderAndNode? root path = some (holder, node) ↔
      resolve? root path = some node ∧ resolve? root path.dropLast = some holder := by
  unfold holderAndNode?
  simp only [Option.bind_eq_bind, Option.bind_eq_some_iff, Option.pure_def, Option.some.injEq,
    Prod.mk.injEq]
  constructor
  · rintro ⟨n, hn, h, hh, rfl, rfl⟩
    exact ⟨hn, hh⟩
  · rintro ⟨hn, hh⟩
    exact ⟨node, hn, holder, hh, rfl, rfl⟩

/-- The location one level up, once a value was accepted. -/
def Location.up (index : Nat) (m : Matcher) (location : Location) (captures : List String) :
    Location :=
  ⟨location.path.dropLast, location.captures ++ captures,
    location.splats ++ if m.recursive then [⟨index, []⟩] else []⟩

theorem parent?_eq_some_iff {index : Nat} {m : Matcher} {location : Location}
    {up : Candidate α} :
    parent? root index m location = some up ↔
      ∃ captures, m.matchValue up.node = some captures ∧
        resolve? root location.path.dropLast = some up.node ∧
        resolve? root location.path.dropLast.dropLast = some up.holder ∧
        up.location = Location.up index m location captures := by
  obtain ⟨holder, node, place⟩ := up
  unfold parent?
  simp only [Option.bind_eq_bind, Option.bind_eq_some_iff, Prod.exists, Option.pure_def,
    Option.some.injEq, Candidate.mk.injEq, holderAndNode?_eq_some_iff]
  constructor
  · rintro ⟨h, n, ⟨hn, hh⟩, captures, hcaptures, rfl, rfl, rfl⟩
    exact ⟨captures, hcaptures, hn, hh, rfl⟩
  · rintro ⟨captures, hcaptures, hn, hh, rfl⟩
    exact ⟨holder, node, ⟨hn, hh⟩, captures, hcaptures, rfl, rfl, rfl⟩

theorem exists_of_mem_stepOut {index : Nat} {m : Matcher} {seen : List (List Key)}
    {candidates : List (Candidate α)} {up : Candidate α}
    (h : up ∈ stepOut root index m seen candidates) :
    ∃ candidate ∈ candidates, candidate.location.path ≠ [] ∧
      parent? root index m candidate.location = some up := by
  induction candidates generalizing seen with
  | nil => cases h
  | cons candidate rest ih =>
    have later : ∀ {seen}, up ∈ stepOut root index m seen rest →
        ∃ candidate' ∈ candidate :: rest, candidate'.location.path ≠ [] ∧
          parent? root index m candidate'.location = some up := by
      intro seen hrest
      obtain ⟨candidate', hmem, hup⟩ := ih hrest
      exact ⟨candidate', List.mem_cons_of_mem _ hmem, hup⟩
    unfold stepOut at h
    simp only at h
    split at h
    · exact later h
    · rename_i hskip
      split at h
      · rename_i first hfirst
        rcases List.mem_cons.1 h with rfl | hrest
        · refine ⟨candidate, List.mem_cons_self, ?_, hfirst⟩
          intro hempty
          rw [hempty] at hskip
          exact hskip rfl
        · exact later hrest
      · exact later h

/-! ## Every step keeps candidates sound -/

theorem sound_of_mem_step (hc : Consistent root) {index : Nat} {m : Matcher}
    {candidates : List (Candidate α)} (h : ∀ candidate ∈ candidates, candidate.Sound root)
    {next : Candidate α} (hnext : next ∈ step root index m candidates) : next.Sound root := by
  cases hparent : m.isParent with
  | false =>
    rw [step_of_not_isParent hparent, mem_stepInto_iff] at hnext
    obtain ⟨candidate, hmem, hit, hhit, rfl⟩ := hnext
    exact sound_extend (h candidate hmem) hhit
  | true =>
    rw [step_of_isParent hparent] at hnext
    obtain ⟨candidate, hmem, -, hup⟩ := exists_of_mem_stepOut hnext
    obtain ⟨captures, -, hnode, hholder, hlocation⟩ := parent?_eq_some_iff.1 hup
    have hpre := List.dropLast_prefix candidate.location.path
    have hpre' := (List.dropLast_prefix candidate.location.path.dropLast).trans hpre
    have hpath := (h candidate hmem).node
    refine ⟨?_, ?_⟩
    · rw [hlocation]
      exact hc.leads_of_resolve? hpath hpre hnode
    · rw [hlocation]
      exact hc.leads_of_resolve? hpath hpre' hholder

/-- Every candidate that a chain keeps is sound. -/
theorem sound_of_mem_run (hc : Consistent root) (ms : List Matcher) (index : Nat)
    {candidates : List (Candidate α)} (h : ∀ candidate ∈ candidates, candidate.Sound root)
    {next : Candidate α} (hnext : next ∈ run root index ms candidates) : next.Sound root := by
  induction ms generalizing index candidates with
  | nil => exact h next hnext
  | cons m ms ih =>
    rw [run_cons] at hnext
    exact ih (index + 1) (fun candidate hmem => sound_of_mem_step hc h hmem) hnext

/-! ## Answers and visitors -/

omit [Tree α] in
theorem report_eq {σ : Type} (visit : σ → Answer α → σ) (state : σ)
    (candidates : List (Candidate α)) :
    report visit state candidates =
      ((candidates.filterMap answer?).foldl visit state,
        (candidates.filterMap answer?).map Answer.location) := by
  induction candidates generalizing state with
  | nil => rfl
  | cons candidate rest ih =>
    unfold report
    cases h : answer? candidate with
    | none =>
      rw [List.filterMap_cons_none h]
      exact ih state
    | some answer =>
      rw [List.filterMap_cons_some h, List.foldl_cons, List.map_cons]
      simp only [ih]

/-- The visitor sees the answers, each once and in their order. -/
theorem findEach_eq {σ : Type} (query : Query) (root : α) (visit : σ → Answer α → σ) (state : σ) :
    query.findEach root visit state =
      ((query.find root).foldl visit state, (query.find root).map Answer.location) :=
  report_eq visit state _

/-- The key of an answer is its path's last, and its holder has there the node that the path leads
to. -/
theorem child?_of_mem_find (hc : Consistent root) {query : Query} {answer : Answer α}
    (h : answer ∈ query.find root) :
    answer.location.path.getLast? = some answer.key ∧
      ∃ node, resolve? root answer.location.path = some node ∧
        child? answer.holder answer.key = some node := by
  obtain ⟨candidate, hmem, hanswer⟩ := mem_find_iff.1 h
  have hsound := sound_of_mem_run hc _ 0 (sound_of_mem_start root) hmem
  obtain ⟨hlast, hholder, hlocation⟩ := answer?_eq_some_iff.1 hanswer
  have hnode := hsound.node.resolve?_eq hc
  have hup := hsound.holder.resolve?_eq hc
  refine ⟨hlocation ▸ hlast, candidate.node, hlocation ▸ hnode, ?_⟩
  obtain ⟨above, hpath⟩ := List.getLast?_eq_some_iff.1 hlast
  rw [hpath, List.dropLast_concat] at hup
  rw [hpath, resolve?_concat, hup, Option.bind_some, hholder] at hnode
  exact hnode

/-- **Candidates and answers agree with the document.** Where every entry is found under its key,
each candidate kept after any part of a chain carries the node at its path and, unless it is the
root, the node one level up. A visitor sees the answers, each once and in their order, and the
holder of each has under its key the node at its path. -/
theorem find_resolves (hc : Consistent root) (ms : List Matcher) :
    (∀ done, done <+: ms → ∀ candidate ∈ run root 0 done [start root],
      resolve? root candidate.location.path = some candidate.node ∧
        (candidate.location.path ≠ [] →
          resolve? root candidate.location.path.dropLast = some candidate.holder)) ∧
      (∀ {σ : Type} (visit : σ → Answer α → σ) (state : σ),
        findEach ⟨ms⟩ root visit state =
          ((find ⟨ms⟩ root).foldl visit state, (find ⟨ms⟩ root).map Answer.location)) ∧
      ∀ answer ∈ find ⟨ms⟩ root,
        answer.location.path ≠ [] ∧ answer.location.path.getLast? = some answer.key ∧
          ∃ node, resolve? root answer.location.path = some node ∧
            child? answer.holder answer.key = some node := by
  refine ⟨?_, fun visit state => findEach_eq ⟨ms⟩ root visit state, ?_⟩
  · intro done _ candidate hmem
    have hsound := sound_of_mem_run hc done 0 (sound_of_mem_start root) hmem
    exact ⟨hsound.node.resolve?_eq hc, fun _ => hsound.holder.resolve?_eq hc⟩
  · intro answer hmem
    obtain ⟨hlast, hchild⟩ := child?_of_mem_find hc hmem
    refine ⟨?_, hlast, hchild⟩
    intro hempty
    rw [hempty] at hlast
    cases hlast

/-- Down to every entry, up to the nodes that hold them, and down again. -/
theorem find_resolves_nested :
    Consistent (Json.object [("a", .object [("b", .null)])]) ∧
      (∀ candidate ∈ run (Json.object [("a", .object [("b", .null)])]) 0
          [⟨none, none, true⟩, ⟨some .parent, none, false⟩]
          [start (Json.object [("a", .object [("b", .null)])])],
        resolve? (Json.object [("a", .object [("b", .null)])]) candidate.location.path =
          some candidate.node) ∧
      findEach
          ⟨[⟨none, none, true⟩, ⟨some .parent, none, false⟩, ⟨some (.literal "b"), none, false⟩]⟩
          (Json.object [("a", .object [("b", .null)])])
          (fun seen answer => seen ++ [answer.key]) [] =
        ([.name "b"], [⟨[.name "a", .name "b"], [], [⟨0, [.name "a", .name "b"]⟩]⟩]) := by
  have hc : Coherent (Json.object [("a", .object [("b", .null)])]) := by decide
  obtain ⟨hkept, hvisit, -⟩ := find_resolves hc.consistent
    [⟨none, none, true⟩, ⟨some .parent, none, false⟩, ⟨some (.literal "b"), none, false⟩]
  have hpre : [(⟨none, none, true⟩ : Matcher), ⟨some .parent, none, false⟩] <+:
      [⟨none, none, true⟩, ⟨some .parent, none, false⟩, ⟨some (.literal "b"), none, false⟩] :=
    List.prefix_append _ [_]
  refine ⟨hc.consistent, fun candidate hmem => (hkept _ hpre candidate hmem).1, ?_⟩
  rw [hvisit]
  decide +kernel

end Query

end PathQuery
