import Mathlib.Data.List.Flatten
import PathQuery.Proofs.Tree.Documents

/-!
# The order of a document

`Precedes node` is the order of the paths below a node that its entries define: a path comes before
those that go on from its end, and what lies at or below an entry before what lies at or below a
later one. So members are in the order in which they were inserted (`precedes_members`) and items go
from the last to the first (`precedes_items`). In a coherent document no two paths precede each
other (`Precedes.asymm`), and entries are visited in this order (`pairwise_precedes_preorder`).
-/

namespace PathQuery.Tree

variable {α : Type} [Tree α]

/-- Whether one path from a node comes before another in the order of the document. -/
inductive Precedes : α → List Key → List Key → Prop
  | above (node : α) (key : Key) (path : List Key) : Precedes node [] (key :: path)
  | inside {node child : α} {key : Key} {first second : List Key} :
      (key, child) ∈ entries node → Precedes child first second →
      Precedes node (key :: first) (key :: second)
  | apart {node : α} {key other : Key} (first second : List Key) :
      [key, other].Sublist ((entries node).map Prod.fst) →
      Precedes node (key :: first) (other :: second)

theorem precedes_members {node : α} {members : List (String × α)}
    (h : entries node = members.map fun (name, value) => (.name name, value))
    {name other : String} (hsub : [name, other].Sublist (members.map Prod.fst))
    (first second : List Key) : Precedes node (.name name :: first) (.name other :: second) := by
  refine .apart first second ?_
  rw [h, Json.keys_members]
  exact hsub.map Key.name

theorem precedes_items {node : α} {items : List α} (h : entries node = Json.indexed items)
    {i j : Nat} (hij : i < j) (hj : j < items.length) (first second : List Key) :
    Precedes node (.index j :: first) (.index i :: second) := by
  refine .apart first second ?_
  have hrange : [i, j].Sublist (List.range items.length) := by
    refine List.Sublist.trans ?_ (List.range_sublist.2 (Nat.succ_le_of_lt hj))
    rw [List.range_succ]
    exact (List.singleton_sublist.2 (List.mem_range.2 hij)).append_right [j]
  rw [h, Json.keys_indexed]
  exact (hrange.map Key.index).reverse

/-! ## A strict order -/

theorem not_sublist_swap {β : Type} {xs : List β} (hnodup : xs.Nodup) {x y : β}
    (h : [x, y].Sublist xs) : ¬[y, x].Sublist xs := by
  induction xs with
  | nil => cases h
  | cons z xs ih =>
    intro hswap
    obtain ⟨hnew, hrest⟩ := List.nodup_cons.1 hnodup
    rcases List.cons_sublist_cons'.1 h with hlater | ⟨rfl, hy⟩
    · rcases List.cons_sublist_cons'.1 hswap with hlater' | ⟨rfl, -⟩
      · exact ih hrest hlater hlater'
      · exact hnew (hlater.subset (List.mem_cons_of_mem _ List.mem_cons_self))
    · rcases List.cons_sublist_cons'.1 hswap with hlater' | ⟨rfl, -⟩
      · exact hnew (hlater'.subset (List.mem_cons_of_mem _ List.mem_cons_self))
      · exact hnew (List.singleton_sublist.1 hy)

/-- In a coherent document no two paths precede each other, and none precedes itself. -/
theorem Precedes.asymm {node : α} (hc : Coherent node) {first second : List Key}
    (h : Precedes node first second) : ¬Precedes node second first := by
  induction h with
  | above node key path => exact nofun
  | @inside node child key _ _ hmem _ ih =>
    intro hswap
    cases hswap with
    | @inside _ child' _ _ _ hmem' hbelow =>
      have hchild := (hc.consistent.child?_eq hmem).symm.trans (hc.consistent.child?_eq hmem')
      obtain rfl := Option.some.inj hchild
      exact ih (hc.child hmem) hbelow
    | apart _ _ hkeys => exact not_sublist_swap hc.nodup hkeys hkeys
  | apart first second hkeys =>
    intro hswap
    cases hswap with
    | inside => exact not_sublist_swap hc.nodup hkeys hkeys
    | apart _ _ hkeys' => exact not_sublist_swap hc.nodup hkeys hkeys'

/-! ## Visits in order -/

/-- The paths of visits below a node start with what leads to it. -/
theorem map_path_preorder (node : α) (before after : List Key) :
    (preorder node (before ++ after)).map Visit.path =
      ((preorder node after).map Visit.path).map (before ++ ·) := by
  induction node using induction_on_entries generalizing after with
  | h node ih =>
    rw [preorder_eq, preorder_eq]
    simp only [visits, List.flatMap_map, List.map_flatMap]
    refine List.flatMap_congr fun entry hentry => ?_
    have hbelow := ih entry hentry (after ++ [entry.1])
    simp only [Visit.path, List.map_cons, List.append_assoc]
    rw [hbelow]

/-- Below each entry lie its own path and those that go on from there. -/
theorem map_path_preorder_eq (node : α) :
    (preorder node []).map Visit.path = (entries node).flatMap fun entry =>
      [entry.1] :: ((preorder entry.2 []).map Visit.path).map (entry.1 :: ·) := by
  rw [preorder_eq]
  simp only [visits, List.flatMap_map, List.map_flatMap]
  refine List.flatMap_congr fun entry _ => ?_
  have hbelow := map_path_preorder entry.2 [entry.1] []
  simp only [Visit.path, List.map_cons, List.nil_append]
  exact congrArg _ hbelow

theorem visits_sublist_preorder (node : α) (descent : List Key) :
    (visits node descent).Sublist (preorder node descent) := by
  rw [preorder_eq]
  conv => lhs; rw [← List.flatMap_singleton' (visits node descent)]
  refine List.Sublist.flatMap_right _ fun visit _ => ?_
  exact (List.nil_sublist _).cons_cons _

/-- Entries are visited in the order of the document. -/
theorem pairwise_precedes_preorder (node : α) :
    ((preorder node []).map Visit.path).Pairwise (Precedes node) := by
  induction node using induction_on_entries with
  | h node ih =>
    rw [map_path_preorder_eq, List.pairwise_flatMap]
    constructor
    · rintro ⟨key, child⟩ hmem
      rw [List.pairwise_cons, List.pairwise_map]
      constructor
      · intro path hpath
        obtain ⟨rest, hrest, rfl⟩ := List.mem_map.1 hpath
        obtain ⟨visit, hvisit, rfl⟩ := List.mem_map.1 hrest
        obtain ⟨rest, hne, hrest, -⟩ := exists_path_of_mem_preorder hvisit
        obtain ⟨next, rest, rfl⟩ := List.exists_cons_of_ne_nil hne
        rw [hrest]
        exact .inside hmem (.above child next rest)
      · exact (ih _ hmem).imp (.inside hmem)
    · -- paths through two entries part at their keys
      rw [List.pairwise_iff_forall_sublist]
      intro entry entry' hsub first hfirst second hsecond
      have hkeys : [entry.1, entry'.1].Sublist ((entries node).map Prod.fst) := hsub.map Prod.fst
      have hhead : ∀ {entry : Key × α} {path : List Key},
          path ∈ [entry.1] :: ((preorder entry.2 []).map Visit.path).map (entry.1 :: ·) →
            ∃ rest, path = entry.1 :: rest := by
        intro entry path hpath
        rcases List.mem_cons.1 hpath with rfl | hpath
        · exact ⟨[], rfl⟩
        · obtain ⟨rest, -, rfl⟩ := List.mem_map.1 hpath
          exact ⟨rest, rfl⟩
      obtain ⟨rest, rfl⟩ := hhead hfirst
      obtain ⟨rest', rfl⟩ := hhead hsecond
      exact .apart rest rest' hkeys

end PathQuery.Tree
