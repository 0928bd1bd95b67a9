import PathQuery.Key
import PathQuery.Scalar

/-!
# Documents

A document type lists the entries of each node and shows its leaves. Everything
else is derived: looking a path up (`Tree.resolve?`) and visiting all entries
below a node in pre-order (`Tree.below`), which ends because a node is larger than
its children together.
-/

namespace PathQuery

namespace Tree

/-- The sum of a measure over a list. -/
def total {β : Type} (measure : β → Nat) : List β → Nat
  | [] => 0
  | x :: rest => measure x + total measure rest

section Total

variable {β γ : Type} {measure : β → Nat}

@[simp] theorem total_append (xs ys : List β) :
    total measure (xs ++ ys) = total measure xs + total measure ys := by
  induction xs with
  | nil => exact (Nat.zero_add _).symm
  | cons x xs ih => rw [List.cons_append, total, total, ih, Nat.add_assoc]

@[simp] theorem total_reverse (xs : List β) : total measure xs.reverse = total measure xs := by
  induction xs with
  | nil => rfl
  | cons x xs ih =>
    rw [List.reverse_cons, total_append, total, total, total, ih, Nat.add_zero, Nat.add_comm]

@[simp] theorem total_map (f : γ → β) (xs : List γ) :
    total measure (xs.map f) = total (fun x => measure (f x)) xs := by
  induction xs with
  | nil => rfl
  | cons x xs ih => rw [List.map_cons, total, total, ih]

end Total

end Tree

class Tree (α : Type) where
  /-- The entries of a node in the order in which they are visited: members in the order in which
  they were inserted, items from the last to the first. -/
  entries : α → List (Key × α)
  /-- The leaf, unless the node is an object or an array. -/
  scalar? : α → Option Scalar
  child? : α → Key → Option α := fun node key => (entries node).lookup key
  /-- A measure under which a node outweighs its children together. -/
  size : α → Nat
  size_entries : ∀ node, Tree.total (fun entry => size entry.2) (entries node) < size node
  entries_of_scalar : ∀ node, (scalar? node).isSome → entries node = []

namespace Tree

variable {α : Type} [Tree α]

def isComposite (node : α) : Bool := (scalar? node).isNone

/-- The node that a path leads to. -/
def resolve? (root : α) (path : List Key) : Option α := path.foldlM child? root

/-- A document whose look-ups agree with its entries at the node and everywhere below, and in
which no key stands for two entries. -/
inductive Coherent : α → Prop
  | intro (node : α) :
      ((entries node).map Prod.fst).Nodup →
      (∀ key, child? node key = (entries node).lookup key) →
      (∀ entry ∈ entries node, Coherent entry.2) → Coherent node

/-- A child is smaller than the node that holds it. -/
theorem size_lt_of_mem {node : α} {entry : Key × α} (h : entry ∈ entries node) :
    size entry.2 < size node := by
  obtain ⟨before, after, h⟩ := List.append_of_mem h
  have := size_entries node
  rw [h, total_append, total] at this
  omega

/-! ## Visiting all entries -/

/-- An entry met on a walk: the node that holds it, its key and node, and the keys that lead from
the start of the walk to the holder. -/
structure Visit (α : Type) where
  holder : α
  key : Key
  node : α
  descent : List Key

def Visit.path (visit : Visit α) : List Key := visit.descent ++ [visit.key]

def visits (node : α) (descent : List Key) : List (Visit α) :=
  (entries node).map fun entry => ⟨node, entry.1, entry.2, descent⟩

/-- What is left to visit, measured by the nodes. -/
def pendingSize (pending : List (Visit α)) : Nat :=
  total (fun visit => size visit.node) pending

theorem pendingSize_visits_append (node : α) (descent : List Key) (rest : List (Visit α)) :
    pendingSize (visits node descent ++ rest) < size node + pendingSize rest := by
  rw [pendingSize, total_append, visits, total_map]
  exact Nat.add_lt_add_right (size_entries node) _

/-- Visits the pending entries in order, each followed by the entries below it. -/
def walk : List (Visit α) → List (Visit α)
  | [] => []
  | visit :: rest => visit :: walk (visits visit.node visit.path ++ rest)
termination_by pending => pendingSize pending
decreasing_by exact pendingSize_visits_append _ _ _

/-- All entries below a node in pre-order. -/
def below (node : α) : List (Visit α) := walk (visits node [])

end Tree

end PathQuery
