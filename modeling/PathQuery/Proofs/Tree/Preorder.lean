import Mathlib.Data.List.Nodup
import PathQuery.Proofs.Tree.Paths

/-!
# Pre-order

`preorder` lists the entries below a node by recursion on the document: each entry,
then those below its node. The walk over pending visits lists the same
(`below_eq_preorder`). It visits exactly the entries that paths lead to
(`mem_preorder_iff`), in a coherent document each path once (`nodup_preorder`). What
holds throughout a document is decided by the walk (`throughout_iff_below`).
-/

namespace PathQuery.Tree

variable {α : Type} [Tree α]

/-- What holds of a node whenever it holds of all its children holds of every node. -/
theorem induction_on_entries {motive : α → Prop}
    (h : ∀ node, (∀ entry ∈ entries node, motive entry.2) → motive node) (node : α) :
    motive node :=
  h node fun entry hmem =>
    have := size_lt_of_mem hmem
    induction_on_entries h entry.2
termination_by size node

/-- The entries below a node that `descent` leads to: each entry, then those below its node. -/
def preorder (node : α) (descent : List Key) : List (Visit α) :=
  (entries node).attach.flatMap fun ⟨(key, child), _⟩ =>
    ⟨node, key, child, descent⟩ :: preorder child (descent ++ [key])
termination_by size node
decreasing_by exact size_lt_of_mem ‹_›

/-! ## The walk -/

theorem preorder_eq (node : α) (descent : List Key) :
    preorder node descent =
      (visits node descent).flatMap fun visit => visit :: preorder visit.node visit.path := by
  rw [preorder, visits, List.flatMap_map]
  conv => rhs; rw [← List.attach_map_subtype_val (entries node), List.flatMap_map]
  rfl

/-- A walk visits each pending entry and then, in pre-order, the entries below it. -/
theorem walk_eq (pending : List (Visit α)) :
    walk pending = pending.flatMap fun visit => visit :: preorder visit.node visit.path := by
  induction pending using walk.induct with
  | case1 => rw [walk]; rfl
  | case2 visit rest ih =>
    rw [walk, ih, List.flatMap_append, ← preorder_eq, List.flatMap_cons, List.cons_append]

theorem below_eq_preorder (node : α) : below node = preorder node [] := by
  rw [below, walk_eq, preorder_eq]

/-! ## What is visited -/

@[simp] theorem mem_visits_iff {visit : Visit α} {node : α} {descent : List Key} :
    visit ∈ visits node descent ↔
      visit.holder = node ∧ visit.descent = descent ∧ (visit.key, visit.node) ∈ entries node := by
  obtain ⟨holder, key, child, keys⟩ := visit
  rw [visits, List.mem_map]
  constructor
  · rintro ⟨entry, hmem, heq⟩
    cases heq
    exact ⟨rfl, rfl, hmem⟩
  · rintro ⟨rfl, rfl, hmem⟩
    exact ⟨(key, child), hmem, rfl⟩

theorem mem_preorder_of_leads {node holder child : α} {path : List Key} {key : Key}
    (h : Leads node path holder) (hmem : (key, child) ∈ entries holder) (descent : List Key) :
    ⟨holder, key, child, descent ++ path⟩ ∈ preorder node descent := by
  induction h generalizing descent with
  | here node =>
    rw [preorder_eq, List.mem_flatMap]
    refine ⟨⟨node, key, child, descent⟩, mem_visits_iff.2 ⟨rfl, rfl, hmem⟩, ?_⟩
    rw [List.append_nil]
    exact List.mem_cons_self
  | @down node first _ name rest hfirst _ ih =>
    rw [preorder_eq, List.mem_flatMap]
    refine ⟨⟨node, name, first, descent⟩, mem_visits_iff.2 ⟨rfl, rfl, hfirst⟩, ?_⟩
    have hbelow := ih hmem (descent ++ [name])
    rw [List.append_assoc] at hbelow
    exact List.mem_cons_of_mem _ hbelow

theorem leads_of_mem_preorder {visit : Visit α} {node : α} {descent : List Key}
    (h : visit ∈ preorder node descent) :
    ∃ path, Leads node path visit.holder ∧ visit.descent = descent ++ path ∧
      (visit.key, visit.node) ∈ entries visit.holder := by
  induction node using induction_on_entries generalizing descent with
  | h node ih =>
    rw [preorder_eq, List.mem_flatMap] at h
    obtain ⟨top, htop, hvisit⟩ := h
    rw [mem_visits_iff] at htop
    obtain ⟨rfl, rfl, hmem⟩ := htop
    rcases List.mem_cons.1 hvisit with rfl | hbelow
    · exact ⟨[], .here _, (List.append_nil _).symm, hmem⟩
    · obtain ⟨path, hleads, hdescent, hlast⟩ := ih _ hmem hbelow
      refine ⟨top.key :: path, .down hmem hleads, ?_, hlast⟩
      rw [hdescent, Visit.path, List.append_assoc]
      rfl

/-- The entries visited are those of the nodes that paths lead to. -/
theorem mem_preorder_iff {visit : Visit α} {node : α} {descent : List Key} :
    visit ∈ preorder node descent ↔
      ∃ path, Leads node path visit.holder ∧ visit.descent = descent ++ path ∧
        (visit.key, visit.node) ∈ entries visit.holder := by
  constructor
  · exact leads_of_mem_preorder
  · rintro ⟨path, hleads, hdescent, hmem⟩
    have h := mem_preorder_of_leads hleads hmem descent
    rw [← hdescent] at h
    exact h

/-- The paths below a node that `descent` leads to go on from there. -/
theorem exists_path_of_mem_preorder {visit : Visit α} {node : α} {descent : List Key}
    (h : visit ∈ preorder node descent) :
    ∃ path, path ≠ [] ∧ visit.path = descent ++ path ∧ Leads node path visit.node := by
  obtain ⟨path, hleads, hdescent, hmem⟩ := leads_of_mem_preorder h
  refine ⟨path ++ [visit.key], by simp, ?_, leads_concat_iff.2 ⟨_, hleads, hmem⟩⟩
  rw [Visit.path, hdescent, List.append_assoc]

/-! ## What holds throughout a document -/

/-- A property of a node and of all nodes below it. -/
def Throughout (P : α → Prop) (root : α) : Prop := ∀ path node, Leads root path node → P node

variable {P : α → Prop} {node : α}

theorem throughout_iff :
    Throughout P node ↔ P node ∧ ∀ entry ∈ entries node, Throughout P entry.2 := by
  constructor
  · intro h
    exact ⟨h [] node (.here node), fun entry hmem path target hleads =>
      h (entry.1 :: path) target (.down hmem hleads)⟩
  · rintro ⟨hnode, hbelow⟩ path target hleads
    cases hleads with
    | here => exact hnode
    | down hmem hrest => exact hbelow _ hmem _ _ hrest

theorem throughout_leaf_iff (h : (scalar? node).isSome) : Throughout P node ↔ P node := by
  rw [throughout_iff, entries_of_scalar node h]
  exact and_iff_left (List.forall_mem_nil _)

theorem throughout_iff_below :
    Throughout P node ↔ P node ∧ ∀ visit ∈ below node, P visit.node := by
  rw [below_eq_preorder]
  constructor
  · intro h
    refine ⟨h [] node (.here node), fun visit hvisit => ?_⟩
    obtain ⟨path, -, -, hleads⟩ := exists_path_of_mem_preorder hvisit
    exact h path visit.node hleads
  · rintro ⟨hnode, hbelow⟩ path target hleads
    rcases List.eq_nil_or_concat path with rfl | ⟨before, key, rfl⟩
    · rw [leads_nil_iff.1 hleads]
      exact hnode
    · rw [List.concat_eq_append, leads_concat_iff] at hleads
      obtain ⟨holder, hholder, hmem⟩ := hleads
      exact hbelow _ (mem_preorder_of_leads hholder hmem [])

instance [DecidablePred P] : Decidable (Throughout P node) :=
  decidable_of_iff _ throughout_iff_below.symm

/-! ## No path twice -/

theorem nodup_visits {node : α} (h : Coherent node) (descent : List Key) :
    ((visits node descent).map Visit.path).Nodup := by
  have hmap : (visits node descent).map Visit.path =
      ((entries node).map Prod.fst).map fun key => descent ++ [key] := by
    simp only [visits, List.map_map]
    rfl
  rw [hmap, List.nodup_map_iff (fun _ _ heq => by simpa using heq)]
  exact h.nodup

/-- The visits below an entry lie on paths through it. -/
theorem prefix_of_mem_cons_preorder {visit below : Visit α}
    (h : below ∈ visit :: preorder visit.node visit.path) : visit.path <+: below.path := by
  rcases List.mem_cons.1 h with rfl | h
  · exact List.prefix_rfl
  · obtain ⟨path, -, hpath, -⟩ := exists_path_of_mem_preorder h
    exact ⟨path, hpath.symm⟩

/-- In a coherent document no path is visited twice. -/
theorem nodup_preorder {node : α} (h : Coherent node) (descent : List Key) :
    ((preorder node descent).map Visit.path).Nodup := by
  induction node using induction_on_entries generalizing descent with
  | h node ih =>
    rw [preorder_eq, List.map_flatMap, List.nodup_flatMap]
    constructor
    · intro visit hvisit
      obtain ⟨-, -, hmem⟩ := mem_visits_iff.1 hvisit
      rw [List.map_cons, List.nodup_cons]
      refine ⟨?_, ih _ hmem (h.child hmem) _⟩
      intro hagain
      obtain ⟨below, hbelow, heq⟩ := List.mem_map.1 hagain
      obtain ⟨path, hne, hpath, -⟩ := exists_path_of_mem_preorder hbelow
      rw [heq] at hpath
      exact hne (List.self_eq_append_right.1 hpath)
    · -- paths through two entries part at their keys
      have hnodup := nodup_visits h descent
      rw [List.Nodup, List.pairwise_map] at hnodup
      refine hnodup.imp_of_mem ?_
      intro first second hfirst hsecond hne path hpath₁ hpath₂
      obtain ⟨v₁, hv₁, rfl⟩ := List.mem_map.1 hpath₁
      obtain ⟨v₂, hv₂, heq⟩ := List.mem_map.1 hpath₂
      have h₁ := prefix_of_mem_cons_preorder hv₁
      have h₂ := prefix_of_mem_cons_preorder hv₂
      rw [heq] at h₂
      obtain ⟨-, hd₁, -⟩ := mem_visits_iff.1 hfirst
      obtain ⟨-, hd₂, -⟩ := mem_visits_iff.1 hsecond
      have hlength : first.path.length = second.path.length := by
        simp [Visit.path, hd₁, hd₂]
      exact hne ((List.prefix_of_prefix_length_le h₁ h₂ (Nat.le_of_eq hlength)).eq_of_length hlength)

end PathQuery.Tree
