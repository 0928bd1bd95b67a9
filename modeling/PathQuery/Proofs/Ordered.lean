import Mathlib.Data.List.Nodup
import PathQuery.Ordered

/-!
# What ordered maps hold

An ordered map holds pairs that were put into it (`mem_of_mem_ofPairs`), and each name
once (`nodup_put`). If no name comes again, it holds them all as they came
(`ofPairs_eq_of_nodup`).
-/

namespace PathQuery.Ordered

variable {α : Type} {name : String} {value : α} {map : List (String × α)}

theorem mem_put {pair : String × α} (h : pair ∈ put name value map) :
    pair = (name, value) ∨ pair ∈ map := by
  induction map with
  | nil => exact .inl (List.mem_singleton.1 h)
  | cons first rest ih =>
    rw [put] at h
    split at h
    · rcases List.mem_cons.1 h with h | h
      · exact .inl h
      · exact .inr (List.mem_cons_of_mem _ h)
    · rcases List.mem_cons.1 h with h | h
      · exact .inr (h ▸ List.mem_cons_self)
      · exact (ih h).imp_right (List.mem_cons_of_mem _)

/-- Putting a name keeps each name once. -/
theorem nodup_put (h : (map.map Prod.fst).Nodup) : ((put name value map).map Prod.fst).Nodup := by
  rw [names_put]
  split
  · exact h
  · rename_i hnew
    rw [List.nodup_append]
    refine ⟨h, List.nodup_singleton name, fun first hfirst second hsecond heq => ?_⟩
    rw [List.mem_singleton.1 hsecond] at heq
    exact hnew (heq ▸ hfirst)

theorem put_of_not_mem (h : name ∉ map.map Prod.fst) :
    put name value map = map ++ [(name, value)] := by
  induction map with
  | nil => rfl
  | cons pair rest ih =>
    rw [List.map_cons, List.mem_cons, not_or] at h
    rw [put, if_neg (Ne.symm h.1), ih h.2, List.cons_append]

theorem ofPairs_eq_of_nodup {pairs : List (String × α)} (h : (pairs.map Prod.fst).Nodup) :
    ofPairs pairs = pairs := by
  have hfold : ∀ map : List (String × α), ((map ++ pairs).map Prod.fst).Nodup →
      pairs.foldl (fun map pair => put pair.1 pair.2 map) map = map ++ pairs := by
    clear h
    induction pairs with
    | nil => exact fun map _ => (List.append_nil map).symm
    | cons pair rest ih =>
      intro map hnodup
      have hnew : pair.1 ∉ map.map Prod.fst := by
        rw [List.map_append, List.map_cons] at hnodup
        intro hmem
        exact List.disjoint_of_nodup_append hnodup hmem List.mem_cons_self
      rw [List.append_cons] at hnodup ⊢
      rw [List.foldl_cons, put_of_not_mem hnew]
      exact ih _ hnodup
  exact hfold [] h

theorem mem_of_mem_ofPairs {pairs : List (String × α)} {pair : String × α}
    (h : pair ∈ ofPairs pairs) : pair ∈ pairs := by
  have hfold : ∀ map : List (String × α),
      pair ∈ pairs.foldl (fun map pair => put pair.1 pair.2 map) map →
        pair ∈ map ∨ pair ∈ pairs := by
    clear h
    induction pairs with
    | nil => exact fun map hmem => .inl hmem
    | cons first rest ih =>
      intro map hmem
      rcases ih _ hmem with hmem | hmem
      · rcases mem_put hmem with heq | hmem
        · exact .inr (heq ▸ List.mem_cons_self)
        · exact .inl hmem
      · exact .inr (List.mem_cons_of_mem _ hmem)
  exact (hfold [] h).resolve_left List.not_mem_nil

end PathQuery.Ordered
