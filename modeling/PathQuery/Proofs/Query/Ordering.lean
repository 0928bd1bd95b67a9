import PathQuery.Proofs.Query.Resolution
import PathQuery.Proofs.Tree.Precedence

/-!
# Answers in the order of the document

A matcher has its hits in the order in which entries are visited (`paths_hits_sublist`). If it is
not recursive, they are entries of one node, and what the rest of the chain finds below one of them
comes before what it finds below the next. So the candidates that a chain leads to from a node are,
in order, some of the visits below it (`paths_run_sublist`).
-/

namespace PathQuery

open PathQuery.Tree

variable {α : Type} [Tree α]

namespace Matcher

theorem reach_sublist_preorder (m : Matcher) (node : α) :
    (m.reach node).Sublist (preorder node []) := by
  unfold reach
  split
  · exact .refl _
  · exact visits_sublist_preorder node []

/-- The hits of a matcher are some of the visits, in order. -/
theorem paths_hits_sublist (m : Matcher) (node : α) :
    ((m.hits node).map Hit.path).Sublist ((preorder node []).map Visit.path) := by
  rw [hits_eq]
  refine (map_filterMap_sublist ?_ (m.reach node)).trans
    ((reach_sublist_preorder m node).map Visit.path)
  intro visit hit hhit
  obtain ⟨captures, -, rfl⟩ := hit?_eq_some_iff.1 hhit
  rfl

end Matcher

namespace Query

theorem flatMap_filterMap_sublist {β γ δ : Type} {f : β → Option γ} {g : γ → List δ}
    {h : β → List δ} (xs : List β)
    (hsub : ∀ x ∈ xs, ∀ y, f x = some y → (g y).Sublist (h x)) :
    ((xs.filterMap f).flatMap g).Sublist (xs.flatMap h) := by
  rw [List.filterMap_eq_flatMap_toList, List.flatMap_assoc]
  refine List.Sublist.flatMap_right xs fun x hx => ?_
  cases hfx : f x with
  | none => exact List.nil_sublist _
  | some y => simpa using hsub x hx y hfx

/-- The candidates that a chain leads to from a node are some of the visits below it, in order. -/
theorem paths_run_sublist {ms : List Matcher} (hne : ms ≠ [])
    (hparent : ∀ m ∈ ms, m.isParent = false) (hplain : ∀ m ∈ ms.dropLast, m.recursive = false)
    (root : α) (index : Nat) (candidate : Candidate α) :
    ((run root index ms [candidate]).map fun next => next.location.path).Sublist
      ((preorder candidate.node candidate.location.path).map Visit.path) := by
  induction ms generalizing index candidate with
  | nil => exact absurd rfl hne
  | cons m ms ih =>
    have hm := hparent m List.mem_cons_self
    have hms := fun m' h => hparent m' (List.mem_cons_of_mem m h)
    by_cases hlast : ms = []
    · -- the last matcher, which may be recursive
      subst hlast
      have hpaths := (m.paths_hits_sublist candidate.node).map (candidate.location.path ++ ·)
      rw [← map_path_preorder, List.append_nil, List.map_map] at hpaths
      rw [run_cons, run_nil, step_of_not_isParent hm, stepInto_singleton, List.map_map]
      exact hpaths
    · rw [List.dropLast_cons_of_ne_nil hlast] at hplain
      have hreach : m.reach candidate.node = visits candidate.node [] := by
        rw [Matcher.reach, hplain m List.mem_cons_self]
        rfl
      rw [run_cons_singleton hm hms, List.map_flatMap, Matcher.hits_eq, hreach, preorder_eq,
        List.map_flatMap, visits, visits, List.filterMap_map, List.flatMap_map]
      refine flatMap_filterMap_sublist _ fun entry _ hit hhit => ?_
      obtain ⟨captures, -, rfl⟩ := Matcher.hit?_eq_some_iff.1 hhit
      exact (ih hlast hms (fun m' h => hplain m' (List.mem_cons_of_mem m h)) (index + 1)
        (extend index candidate.location _)).cons _

/-- **Answers come in the order of the document.** Without steps to the parent, and if no matcher
but the last is recursive, each answer of a chain precedes all that follow it. The answers are some
of the visits of a walk through the document, which is in the same order, and in a coherent document
the order is strict. -/
theorem find_in_order (root : α) (ms : List Matcher)
    (hparent : ∀ m ∈ ms, m.isParent = false) (hplain : ∀ m ∈ ms.dropLast, m.recursive = false) :
    ((find ⟨ms⟩ root).map fun answer => answer.location.path).Pairwise (Precedes root) ∧
      ((find ⟨ms⟩ root).map fun answer => answer.location.path).Sublist
        ((below root).map Visit.path) ∧
      ((below root).map Visit.path).Pairwise (Precedes root) ∧
      (Coherent root →
        ∀ first second, Precedes root first second → ¬Precedes root second first) := by
  have hvisits : ((below root).map Visit.path).Pairwise (Precedes root) := by
    rw [below_eq_preorder]
    exact pairwise_precedes_preorder root
  have hanswers : ((find ⟨ms⟩ root).map fun answer => answer.location.path).Sublist
      ((below root).map Visit.path) := by
    by_cases hne : ms = []
    · subst hne
      exact List.nil_sublist _
    · rw [below_eq_preorder]
      exact (map_find_sublist Location.path ms root).trans
        (paths_run_sublist hne hparent hplain root 0 (start root))
  exact ⟨hvisits.sublist hanswers, hanswers, hvisits, fun hc _ _ => Precedes.asymm hc⟩

/-- Members in the order in which they were inserted, items from the last to the first, and each
node before what lies below it. -/
theorem find_in_order_reversed :
    (find ⟨[⟨some .any, none, false⟩, ⟨some .any, none, true⟩]⟩
        (Json.object [("b", .array [.array [.null], .null]), ("a", .array [.null])])).map
          (fun answer => answer.location.path) =
        [[.name "b", .index 1], [.name "b", .index 0], [.name "b", .index 0, .index 0],
          [.name "a", .index 0]] ∧
      ((find ⟨[⟨some .any, none, false⟩, ⟨some .any, none, true⟩]⟩
        (Json.object [("b", .array [.array [.null], .null]), ("a", .array [.null])])).map
          fun answer => answer.location.path).Pairwise
        (Precedes (Json.object [("b", .array [.array [.null], .null]), ("a", .array [.null])])) := by
  refine ⟨by decide +kernel, (find_in_order _ _ ?_ ?_).1⟩
  · exact List.forall_mem_cons.2 ⟨rfl, List.forall_mem_singleton.2 rfl⟩
  · exact List.forall_mem_singleton.2 rfl

end Query

end PathQuery
