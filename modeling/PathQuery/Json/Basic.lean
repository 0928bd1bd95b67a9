import PathQuery.Tree

/-!
# JSON values

Values as they are read from JSON text. Objects keep their members in order, and
whole numbers keep their 64 bits. Values are documents: `Tree Json`.
-/

namespace PathQuery

open Number

inductive Json
  | null
  | bool (value : Bool)
  | integer (value : Int64)
  | unsigned (value : UInt64)
  | float (value : Double)
  | string (value : String)
  | array (items : List Json)
  | object (members : List (String × Json))
  deriving Inhabited

namespace Json

mutual

/-- The number of values in a value, itself included. -/
def size : Json → Nat
  | .array items => itemsSize items + 1
  | .object members => membersSize members + 1
  | _ => 1
termination_by structural value => value

def itemsSize : List Json → Nat
  | [] => 0
  | item :: rest => size item + itemsSize rest
termination_by structural items => items

def membersSize : List (String × Json) → Nat
  | [] => 0
  | (_, value) :: rest => size value + membersSize rest
termination_by structural members => members

end

def scalar? : Json → Option Scalar
  | null => some .null
  | bool b => some (.bool b)
  | integer n => some (.integer n)
  | unsigned n => some (.unsigned n)
  | float x => some (.float x)
  | string s => some (.string s)
  | array _ => none
  | object _ => none

/-- The items of an array under their positions, the last one first. -/
def indexed {α : Type} (items : List α) : List (Key × α) :=
  (items.zipIdx.map fun (item, i) => (Key.index i, item)).reverse

/-- The members of an object, or the items of an array from the last to the first. -/
def entries : Json → List (Key × Json)
  | array items => indexed items
  | object members => members.map fun (name, value) => (.name name, value)
  | _ => []

/-- The member of that name or the item at that position. -/
def child? : Json → Key → Option Json
  | object members, .name name => members.lookup name
  | array items, .index i => items[i]?
  | _, _ => none

theorem itemsSize_eq_total (items : List Json) : itemsSize items = Tree.total size items := by
  induction items with
  | nil => rfl
  | cons item rest ih => rw [itemsSize, Tree.total, ih]

theorem membersSize_eq_total (members : List (String × Json)) :
    membersSize members = Tree.total (fun member => size member.2) members := by
  induction members with
  | nil => rfl
  | cons member rest ih => rw [membersSize, Tree.total, ih]

theorem map_snd_indexed {α : Type} (items : List α) :
    (indexed items).map Prod.snd = items.reverse := by
  simp [indexed, Function.comp_def]

theorem total_indexed {α : Type} (measure : α → Nat) (items : List α) :
    Tree.total (fun entry => measure entry.2) (indexed items) = Tree.total measure items := by
  rw [← Tree.total_map, map_snd_indexed, Tree.total_reverse]

theorem size_entries (value : Json) :
    Tree.total (fun entry => size entry.2) (entries value) < size value := by
  cases value with
  | array items =>
    rw [entries, total_indexed, size, itemsSize_eq_total]
    exact Nat.lt_succ_self _
  | object members =>
    rw [entries, Tree.total_map, size, membersSize_eq_total]
    exact Nat.lt_succ_self _
  | _ => exact Nat.zero_lt_one

instance : Tree Json where
  entries := entries
  scalar? := scalar?
  child? := child?
  size := size
  size_entries := size_entries
  entries_of_scalar := by
    intro value h
    cases value <;> first | rfl | simp [scalar?] at h

def ofKey : Key → Json
  | .name s => .string s
  | .index i => if i ≤ Int64.maxValue.toInt then .integer (.ofNat i) else .unsigned (.ofNat i)

def ofPath (path : List Key) : Json := .array (path.map ofKey)

end Json

end PathQuery
