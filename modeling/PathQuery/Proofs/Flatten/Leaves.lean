import PathQuery.Flatten
import PathQuery.Proofs.Ordered
import PathQuery.Proofs.Tree.Preorder

/-!
# Leaves and their paths

The leaves below a node are the nodes without entries that paths lead to
(`mem_leaves_iff`). Flattening keeps leaves of the document, each under the text of its
path (`mem_leaves_of_mem_flatten`).
-/

namespace PathQuery

namespace Tree

variable {α : Type} [Tree α]

theorem leaves_eq (node : α) :
    leaves node = (entries node).flatMap fun (key, child) =>
      if (entries child).isEmpty then [([key], child)]
      else (leaves child).map fun (path, leaf) => (key :: path, leaf) := by
  rw [leaves]
  conv => rhs; rw [← List.attach_map_subtype_val (entries node), List.flatMap_map]

theorem mem_leaves_cons_iff {node leaf : α} {key : Key} {path : List Key} :
    (key :: path, leaf) ∈ leaves node ↔ ∃ child, (key, child) ∈ entries node ∧
      if (entries child).isEmpty then path = [] ∧ leaf = child
      else (path, leaf) ∈ leaves child := by
  rw [leaves_eq, List.mem_flatMap]
  constructor
  · rintro ⟨⟨first, child⟩, hmem, hleaf⟩
    dsimp only at hleaf
    split at hleaf
    · rename_i hempty
      obtain ⟨hpath, rfl⟩ := Prod.mk.inj (List.mem_singleton.1 hleaf)
      obtain ⟨rfl, rfl⟩ := List.cons.inj hpath
      exact ⟨leaf, hmem, by rw [if_pos hempty]; exact ⟨rfl, rfl⟩⟩
    · rename_i hempty
      obtain ⟨⟨rest, found⟩, hrest, heq⟩ := List.mem_map.1 hleaf
      cases heq
      exact ⟨child, hmem, by rw [if_neg hempty]; exact hrest⟩
  · rintro ⟨child, hmem, hleaf⟩
    refine ⟨(key, child), hmem, ?_⟩
    dsimp only
    split at hleaf
    · rename_i hempty
      obtain ⟨rfl, rfl⟩ := hleaf
      rw [if_pos hempty]
      exact List.mem_singleton_self _
    · rename_i hempty
      rw [if_neg hempty]
      exact List.mem_map.2 ⟨_, hleaf, rfl⟩

theorem nil_not_mem_leaves {node leaf : α} : ([], leaf) ∉ leaves node := by
  rw [leaves_eq, List.mem_flatMap]
  rintro ⟨⟨key, child⟩, -, hleaf⟩
  dsimp only at hleaf
  split at hleaf
  · rw [List.mem_singleton] at hleaf
    cases hleaf
  · obtain ⟨⟨rest, found⟩, -, heq⟩ := List.mem_map.1 hleaf
    cases heq

theorem leads_of_mem_leaves {node leaf : α} {path : List Key} (h : (path, leaf) ∈ leaves node) :
    Leads node path leaf ∧ entries leaf = [] := by
  induction path generalizing node with
  | nil => exact absurd h nil_not_mem_leaves
  | cons key path ih =>
    obtain ⟨child, hmem, hleaf⟩ := mem_leaves_cons_iff.1 h
    split at hleaf
    · rename_i hempty
      obtain ⟨rfl, rfl⟩ := hleaf
      exact ⟨leads_singleton hmem, List.isEmpty_iff.1 hempty⟩
    · obtain ⟨hleads, hempty⟩ := ih hleaf
      exact ⟨.down hmem hleads, hempty⟩

/-- The leaves below a node are the nodes without entries that paths lead to. -/
theorem mem_leaves_iff {node leaf : α} {path : List Key} :
    (path, leaf) ∈ leaves node ↔ path ≠ [] ∧ Leads node path leaf ∧ entries leaf = [] := by
  constructor
  · intro h
    refine ⟨?_, leads_of_mem_leaves h⟩
    rintro rfl
    exact nil_not_mem_leaves h
  · rintro ⟨hne, hleads, hempty⟩
    induction hleads with
    | here => exact absurd rfl hne
    | @down node child leaf key path hmem hrest ih =>
      refine mem_leaves_cons_iff.2 ⟨child, hmem, ?_⟩
      cases hrest with
      | here => rw [hempty]; exact ⟨rfl, rfl⟩
      | @down _ second _ next after hsecond hafter =>
        have hchild : ¬(entries child).isEmpty = true := by
          rw [List.isEmpty_iff]
          exact List.ne_nil_of_mem hsecond
        rw [if_neg hchild]
        exact ih (List.cons_ne_nil next after) hempty

end Tree

/-! ## Flattening -/

theorem mem_leaves_of_mem_flatten {α : Type} [Tree α] {root leaf : α} {escaped : Bool}
    {text : String} {path : List Key} (h : (text, path, leaf) ∈ flatten root escaped) :
    text = pathText escaped path ∧ (path, leaf) ∈ Tree.leaves root := by
  obtain ⟨⟨found, target⟩, hmem, heq⟩ := List.mem_map.1 (Ordered.mem_of_mem_ofPairs h)
  cases heq
  exact ⟨rfl, hmem⟩

end PathQuery
