import Mathlib.Data.List.Basic
import PathQuery.Proofs.Tree.Preorder

/-!
# Trails

A trail leads from a node to an entry below it by positions: that of an entry of the node, that of
an entry of its child, and so on. Unlike paths, trails tell any two entries apart, also where a key
stands twice. `numbered` lists the entries in pre-order with their trails. It holds each entry
below the node (`mem_numbered_iff`) in the order of the trails, which increase from one to the next
(`pairwise_lt_numbered`), so none comes twice.
-/

namespace PathQuery.Tree

variable {α : Type} [Tree α]

/-- The entry at the end of a trail from a node that `descent` leads to, as a visit. -/
def visitAt? (node : α) (descent : List Key) : List Nat → Option (Visit α)
  | [] => none
  | [i] => (entries node)[i]?.map fun (key, child) => ⟨node, key, child, descent⟩
  | i :: j :: rest =>
    (entries node)[i]?.bind fun (key, child) => visitAt? child (descent ++ [key]) (j :: rest)

/-- The entries below a node that `descent` leads to in pre-order, each with its trail. -/
def numbered (node : α) (descent : List Key) : List (List Nat × Visit α) :=
  (entries node).zipIdx.attach.flatMap fun ⟨((key, child), i), _⟩ =>
    ([i], ⟨node, key, child, descent⟩) ::
      (numbered child (descent ++ [key])).map fun (trail, visit) => (i :: trail, visit)
termination_by size node
decreasing_by exact size_lt_of_mem (List.fst_mem_of_mem_zipIdx ‹_›)

/-- The numbered entries that lie at or below one entry. -/
def numberedAt (node : α) (descent : List Key) (entry : (Key × α) × Nat) :
    List (List Nat × Visit α) :=
  ([entry.2], ⟨node, entry.1.1, entry.1.2, descent⟩) ::
    (numbered entry.1.2 (descent ++ [entry.1.1])).map fun (trail, visit) => (entry.2 :: trail, visit)

theorem numbered_eq (node : α) (descent : List Key) :
    numbered node descent = (entries node).zipIdx.flatMap (numberedAt node descent) := by
  rw [numbered]
  conv => rhs; rw [← List.attach_map_subtype_val (entries node).zipIdx, List.flatMap_map]
  rfl

/-- The numbered entries are those that are visited in pre-order. -/
theorem map_snd_numbered (node : α) (descent : List Key) :
    (numbered node descent).map Prod.snd = preorder node descent := by
  induction node using induction_on_entries generalizing descent with
  | h node ih =>
    rw [numbered_eq, List.map_flatMap, preorder_eq, visits, List.flatMap_map]
    conv => rhs; rw [← List.zipIdx_map_fst 0 (entries node), List.flatMap_map]
    refine List.flatMap_congr fun entry hentry => ?_
    rw [numberedAt, List.map_cons, List.map_map, Visit.path,
      ← ih entry.1 (List.fst_mem_of_mem_zipIdx hentry)]
    rfl

/-! ## Every entry -/

theorem visitAt?_cons (node : α) (descent : List Key) (i : Nat) {trail : List Nat}
    (h : trail ≠ []) :
    visitAt? node descent (i :: trail) =
      (entries node)[i]?.bind fun entry => visitAt? entry.2 (descent ++ [entry.1]) trail := by
  cases trail with
  | nil => exact absurd rfl h
  | cons j rest => rfl

theorem mem_numberedAt_iff {node : α} {descent : List Key} {entry : (Key × α) × Nat}
    {trail : List Nat} {visit : Visit α} :
    (trail, visit) ∈ numberedAt node descent entry ↔
      (trail = [entry.2] ∧ visit = ⟨node, entry.1.1, entry.1.2, descent⟩) ∨
        ∃ rest, trail = entry.2 :: rest ∧
          (rest, visit) ∈ numbered entry.1.2 (descent ++ [entry.1.1]) := by
  rw [numberedAt, List.mem_cons, List.mem_map, Prod.mk.injEq]
  refine or_congr_right ⟨?_, ?_⟩
  · rintro ⟨⟨rest, below⟩, hmem, heq⟩
    cases heq
    exact ⟨rest, rfl, hmem⟩
  · rintro ⟨rest, rfl, hmem⟩
    exact ⟨(rest, visit), hmem, rfl⟩

theorem trail_ne_nil_of_mem_numbered {node : α} {descent : List Key} {trail : List Nat}
    {visit : Visit α} (h : (trail, visit) ∈ numbered node descent) : trail ≠ [] := by
  rw [numbered_eq, List.mem_flatMap] at h
  obtain ⟨entry, -, h⟩ := h
  rcases mem_numberedAt_iff.1 h with ⟨rfl, -⟩ | ⟨rest, rfl, -⟩
  · exact List.cons_ne_nil _ _
  · exact List.cons_ne_nil _ _

/-- The numbered entries are those that trails lead to. -/
theorem mem_numbered_iff {node : α} {descent : List Key} {trail : List Nat} {visit : Visit α} :
    (trail, visit) ∈ numbered node descent ↔ visitAt? node descent trail = some visit := by
  induction node using induction_on_entries generalizing descent trail with
  | h node ih =>
    rw [numbered_eq, List.mem_flatMap]
    constructor
    · rintro ⟨entry, hentry, h⟩
      rcases mem_numberedAt_iff.1 h with ⟨rfl, rfl⟩ | ⟨rest, rfl, hrest⟩
      · rw [visitAt?, List.mem_zipIdx_iff_getElem?.1 hentry]
        rfl
      · rw [visitAt?_cons _ _ _ (trail_ne_nil_of_mem_numbered hrest),
          List.mem_zipIdx_iff_getElem?.1 hentry]
        exact (ih entry.1 (List.fst_mem_of_mem_zipIdx hentry)).1 hrest
    · intro h
      match trail with
      | [] => cases h
      | [i] =>
        obtain ⟨entry, hentry, rfl⟩ := Option.map_eq_some_iff.1 h
        exact ⟨(entry, i), List.mem_zipIdx_iff_getElem?.2 hentry,
          mem_numberedAt_iff.2 (.inl ⟨rfl, rfl⟩)⟩
      | i :: j :: rest =>
        obtain ⟨entry, hentry, hrest⟩ := Option.bind_eq_some_iff.1 h
        have hbelow := (ih entry (List.mem_of_getElem? hentry)).2 hrest
        exact ⟨(entry, i), List.mem_zipIdx_iff_getElem?.2 hentry,
          mem_numberedAt_iff.2 (.inr ⟨j :: rest, rfl, hbelow⟩)⟩

/-! ## In order -/

theorem pairwise_snd_zipIdx {β : Type} (xs : List β) :
    xs.zipIdx.Pairwise fun x y => x.2 < y.2 := by
  rw [← List.pairwise_map (f := Prod.snd), List.zipIdx_map_snd]
  exact List.pairwise_lt_range'

/-- Trails come in their order, in which a trail goes before those that lead on from its end. -/
theorem pairwise_lt_numbered (node : α) (descent : List Key) :
    (numbered node descent).Pairwise fun x y => x.1 < y.1 := by
  induction node using induction_on_entries generalizing descent with
  | h node ih =>
    rw [numbered_eq, List.pairwise_flatMap]
    constructor
    · intro entry hentry
      rw [numberedAt, List.pairwise_cons, List.pairwise_map]
      constructor
      · intro below hbelow
        obtain ⟨⟨rest, visit⟩, hrest, rfl⟩ := List.mem_map.1 hbelow
        obtain ⟨j, tail, rfl⟩ := List.exists_cons_of_ne_nil (trail_ne_nil_of_mem_numbered hrest)
        exact List.cons_lt_cons_self.2 (List.nil_lt_cons j tail)
      · refine (ih entry.1 (List.fst_mem_of_mem_zipIdx hentry) _).imp fun hlt => ?_
        exact List.cons_lt_cons_self.2 hlt
    · -- trails through two entries part at their first positions
      refine (pairwise_snd_zipIdx (entries node)).imp fun {first second} hlt => ?_
      have hhead : ∀ {entry : (Key × α) × Nat} {x : List Nat × Visit α},
          x ∈ numberedAt node descent entry → ∃ rest, x.1 = entry.2 :: rest := by
        rintro entry ⟨trail, visit⟩ hx
        rcases mem_numberedAt_iff.1 hx with ⟨rfl, -⟩ | ⟨rest, rfl, -⟩
        · exact ⟨[], rfl⟩
        · exact ⟨rest, rfl⟩
      intro x hx y hy
      obtain ⟨rest, hx⟩ := hhead hx
      obtain ⟨rest', hy⟩ := hhead hy
      rw [hx, hy]
      exact List.cons_lt_cons_iff.2 (.inl hlt)

end PathQuery.Tree
