import PathQuery.Matcher
import PathQuery.Proofs.Tree.Preorder

/-!
# The hits of a matcher

A matcher tests the entries of a node, or all entries below it (`hits_eq`). In a
coherent document its hits are the pieces of path that it goes along, and no others
(`along?_of_mem_hits`, `exists_hit_of_along?`), each once (`nodup_hits`).
-/

namespace PathQuery.Matcher

open PathQuery.Tree

variable {α : Type} [Tree α]

/-! ## What is tested -/

/-- The entries that a matcher tests at a node. -/
def reach (m : Matcher) (node : α) : List (Visit α) :=
  if m.recursive then preorder node [] else visits node []

/-- The keys that a recursive matcher goes through on the way to an entry. -/
def splatOf (m : Matcher) (visit : Visit α) : Option (List Key) :=
  if m.recursive then some (if m.key.isNone then visit.path else visit.descent) else none

/-- The hit that a matcher has at a visit, if it accepts the entry. -/
def hit? (m : Matcher) (visit : Visit α) : Option (Hit α) :=
  (m.matchEntry visit.key visit.node).map fun captures =>
    ⟨visit.holder, visit.key, visit.node, visit.path, captures, m.splatOf visit⟩

theorem hits_eq (m : Matcher) (node : α) : m.hits node = (m.reach node).filterMap m.hit? := by
  unfold hits reach
  by_cases h : m.recursive = true
  · rw [if_pos h, if_pos h, search, below_eq_preorder]
    congr 1
    funext visit
    simp only [hitOfVisit, hit?, splatOf, h, if_true]
  · rw [if_neg h, if_neg h, scan, visits, List.filterMap_map]
    congr 1
    funext entry
    simp only [hit?, splatOf, h, Function.comp_apply]
    rfl

theorem mem_hits_iff {m : Matcher} {node : α} {hit : Hit α} :
    hit ∈ m.hits node ↔ ∃ visit ∈ m.reach node, m.hit? visit = some hit := by
  rw [hits_eq, List.mem_filterMap]

theorem mem_reach_iff {m : Matcher} {node : α} {visit : Visit α} :
    visit ∈ m.reach node ↔ Leads node visit.descent visit.holder ∧
      (visit.key, visit.node) ∈ entries visit.holder ∧
      (m.recursive = true ∨ visit.descent = []) := by
  unfold reach
  by_cases h : m.recursive = true
  · rw [if_pos h, mem_preorder_iff]
    simp only [List.nil_append, h, true_or, and_true]
    constructor
    · rintro ⟨path, hleads, hdescent, hmem⟩
      exact ⟨hdescent ▸ hleads, hmem⟩
    · rintro ⟨hleads, hmem⟩
      exact ⟨visit.descent, hleads, rfl, hmem⟩
  · rw [if_neg h, mem_visits_iff]
    constructor
    · rintro ⟨hholder, hdescent, hmem⟩
      rw [hdescent, hholder]
      exact ⟨.here node, hholder ▸ hmem, .inr rfl⟩
    · rintro ⟨hleads, hmem, hdescent⟩
      replace hdescent := hdescent.resolve_left h
      rw [hdescent, leads_nil_iff] at hleads
      exact ⟨hleads, hdescent, hleads ▸ hmem⟩

theorem hit?_eq_some_iff {m : Matcher} {visit : Visit α} {hit : Hit α} :
    m.hit? visit = some hit ↔ ∃ captures, m.matchEntry visit.key visit.node = some captures ∧
      hit = ⟨visit.holder, visit.key, visit.node, visit.path, captures, m.splatOf visit⟩ := by
  rw [hit?, Option.map_eq_some_iff]
  constructor
  · rintro ⟨captures, hcaptures, rfl⟩
    exact ⟨captures, hcaptures, rfl⟩
  · rintro ⟨captures, hcaptures, rfl⟩
    exact ⟨captures, hcaptures, rfl⟩

theorem leads_of_mem_hits {m : Matcher} {node : α} {hit : Hit α} (h : hit ∈ m.hits node) :
    hit.path ≠ [] ∧ Leads node hit.path hit.node ∧ Leads node hit.path.dropLast hit.holder := by
  obtain ⟨visit, hvisit, hhit⟩ := mem_hits_iff.1 h
  obtain ⟨captures, -, rfl⟩ := hit?_eq_some_iff.1 hhit
  obtain ⟨hleads, hmem, -⟩ := mem_reach_iff.1 hvisit
  refine ⟨?_, leads_concat_iff.2 ⟨_, hleads, hmem⟩, ?_⟩
  · simp [Visit.path]
  · simpa [Visit.path] using hleads

/-- Without a search below, a hit is one key away. -/
theorem length_path_of_mem_hits {m : Matcher} (h : m.recursive = false) {node : α} {hit : Hit α}
    (hhit : hit ∈ m.hits node) : hit.path.length = 1 := by
  obtain ⟨visit, hvisit, hsome⟩ := mem_hits_iff.1 hhit
  obtain ⟨captures, -, rfl⟩ := hit?_eq_some_iff.1 hsome
  obtain ⟨-, -, hdescent⟩ := mem_reach_iff.1 hvisit
  rw [h] at hdescent
  rw [Visit.path, hdescent.resolve_left Bool.false_ne_true]
  rfl

/-! ## Hits as pieces of a path -/

/-- What a matcher captures along a piece of a path from a node, and the node at its end: the last
key and that node are an entry that the matcher accepts, and the piece has one key, or any number
from one on if the matcher is recursive. -/
def along? (m : Matcher) (node : α) (piece : List Key) : Option (List String × α) := do
  let key ← piece.getLast?
  let target ← resolve? node piece
  let captures ← m.matchEntry key target
  if m.recursive || piece.length == 1 then some (captures, target) else none

/-- The keys that a recursive matcher goes through along a piece of a path. -/
def splatAlong (m : Matcher) (piece : List Key) : Option (List Key) :=
  if m.recursive then some (if m.key.isNone then piece else piece.dropLast) else none

theorem along?_concat {m : Matcher} {node : α} (h : Coherent node) {descent : List Key} {key : Key}
    {captures : List String} {target : α} :
    m.along? node (descent ++ [key]) = some (captures, target) ↔
      ∃ holder, Leads node descent holder ∧ (key, target) ∈ entries holder ∧
        m.matchEntry key target = some captures ∧ (m.recursive = true ∨ descent = []) := by
  have hlength : ((descent ++ [key]).length == 1) = true ↔ descent = [] := by simp
  unfold along?
  simp only [List.getLast?_concat, Option.bind_eq_bind, Option.bind_some, Option.bind_eq_some_iff,
    Option.ite_none_right_eq_some, Bool.or_eq_true, hlength, h.resolve?_eq_some_iff,
    leads_concat_iff, Option.some.injEq, Prod.mk.injEq]
  constructor
  · rintro ⟨found, ⟨holder, hleads, hmem⟩, texts, htexts, hdescent, rfl, rfl⟩
    exact ⟨holder, hleads, hmem, htexts, hdescent⟩
  · rintro ⟨holder, hleads, hmem, hcaptures, hdescent⟩
    exact ⟨target, ⟨holder, hleads, hmem⟩, captures, hcaptures, hdescent, rfl, rfl⟩

theorem along?_nil (m : Matcher) (node : α) : m.along? node [] = none := rfl

/-- A hit is a piece of a path that the matcher goes along. -/
theorem along?_of_mem_hits {m : Matcher} {node : α} (hc : Coherent node) {hit : Hit α}
    (h : hit ∈ m.hits node) :
    m.along? node hit.path = some (hit.captures, hit.node) ∧
      hit.splat = m.splatAlong hit.path := by
  obtain ⟨visit, hvisit, hhit⟩ := mem_hits_iff.1 h
  obtain ⟨captures, hcaptures, rfl⟩ := hit?_eq_some_iff.1 hhit
  obtain ⟨hleads, hmem, hrecursive⟩ := mem_reach_iff.1 hvisit
  constructor
  · exact (along?_concat hc).2 ⟨_, hleads, hmem, hcaptures, hrecursive⟩
  · simp [splatOf, splatAlong, Visit.path]

/-- Every piece of a path that the matcher goes along is a hit. -/
theorem exists_hit_of_along? {m : Matcher} {node : α} (hc : Coherent node) {piece : List Key}
    {captures : List String} {target : α} (h : m.along? node piece = some (captures, target)) :
    ∃ hit ∈ m.hits node, hit.path = piece ∧ hit.captures = captures ∧ hit.node = target := by
  rcases List.eq_nil_or_concat piece with rfl | ⟨descent, key, rfl⟩
  · rw [along?_nil] at h
    cases h
  · rw [List.concat_eq_append] at h ⊢
    obtain ⟨holder, hleads, hmem, hcaptures, hrecursive⟩ := (along?_concat hc).1 h
    have hvisit : ⟨holder, key, target, descent⟩ ∈ m.reach node :=
      mem_reach_iff.2 ⟨hleads, hmem, hrecursive⟩
    refine ⟨_, mem_hits_iff.2 ⟨_, hvisit, hit?_eq_some_iff.2 ⟨captures, hcaptures, rfl⟩⟩, ?_⟩
    exact ⟨rfl, rfl, rfl⟩

theorem nodup_reach {node : α} (h : Coherent node) (m : Matcher) :
    ((m.reach node).map Visit.path).Nodup := by
  unfold reach
  split
  · exact nodup_preorder h []
  · exact nodup_visits h []

theorem map_filterMap_sublist {β γ δ : Type} {f : β → Option γ} {g : γ → δ} {h : β → δ}
    (hf : ∀ x y, f x = some y → g y = h x) (xs : List β) :
    ((xs.filterMap f).map g).Sublist (xs.map h) := by
  induction xs with
  | nil => exact .slnil
  | cons x xs ih =>
    cases hx : f x with
    | none =>
      rw [List.filterMap_cons_none hx]
      exact ih.cons _
    | some y =>
      rw [List.filterMap_cons_some hx, List.map_cons, List.map_cons, hf x y hx]
      exact ih.cons_cons _

/-- In a coherent document a matcher has no two hits with one path. -/
theorem nodup_hits {node : α} (h : Coherent node) (m : Matcher) :
    ((m.hits node).map Hit.path).Nodup := by
  rw [hits_eq]
  refine (map_filterMap_sublist ?_ (m.reach node)).nodup (nodup_reach h m)
  intro visit hit hhit
  obtain ⟨captures, -, rfl⟩ := hit?_eq_some_iff.1 hhit
  rfl

end PathQuery.Matcher
