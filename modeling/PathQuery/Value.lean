import PathQuery.Json.Basic

/-!
# Documents in memory

A second document type, with one kind of whole number. JSON values convert to it
and back; a whole number above the signed words becomes a double, and a double
that is no number becomes `null`.
-/

namespace PathQuery

open Number

/-- A document built in memory. -/
inductive Value
  | null
  | bool (value : Bool)
  | float (value : Double)
  | integer (value : Int64)
  | string (value : String)
  | array (items : List Value)
  | object (members : List (String × Value))
  deriving Inhabited

namespace Value

mutual

def size : Value → Nat
  | .array items => itemsSize items + 1
  | .object members => membersSize members + 1
  | _ => 1
termination_by structural value => value

def itemsSize : List Value → Nat
  | [] => 0
  | item :: rest => size item + itemsSize rest
termination_by structural items => items

def membersSize : List (String × Value) → Nat
  | [] => 0
  | (_, value) :: rest => size value + membersSize rest
termination_by structural members => members

end

def scalar? : Value → Option Scalar
  | null => some .null
  | bool b => some (.bool b)
  | float x => some (.float x)
  | integer n => some (.integer n)
  | string s => some (.string s)
  | array _ => none
  | object _ => none

def entries : Value → List (Key × Value)
  | array items => Json.indexed items
  | object members => members.map fun (name, value) => (.name name, value)
  | _ => []

def child? : Value → Key → Option Value
  | object members, .name name => members.lookup name
  | array items, .index i => items[i]?
  | _, _ => none

theorem itemsSize_eq_total (items : List Value) : itemsSize items = Tree.total size items := by
  induction items with
  | nil => rfl
  | cons item rest ih => rw [itemsSize, Tree.total, ih]

theorem membersSize_eq_total (members : List (String × Value)) :
    membersSize members = Tree.total (fun member => size member.2) members := by
  induction members with
  | nil => rfl
  | cons member rest ih => rw [membersSize, Tree.total, ih]

theorem size_entries (value : Value) :
    Tree.total (fun entry => size entry.2) (entries value) < size value := by
  cases value with
  | array items =>
    rw [entries, Json.total_indexed, size, itemsSize_eq_total]
    exact Nat.lt_succ_self _
  | object members =>
    rw [entries, Tree.total_map, size, membersSize_eq_total]
    exact Nat.lt_succ_self _
  | _ => exact Nat.zero_lt_one

instance : Tree Value where
  entries := entries
  scalar? := scalar?
  child? := child?
  size := size
  size_entries := size_entries
  entries_of_scalar := by
    intro value h
    cases value <;> first | rfl | simp [scalar?] at h

/-! ## Conversion -/

mutual

def ofJson : Json → Value
  | .null => null
  | .bool b => bool b
  | .integer n => integer n
  | .unsigned n => float (.ofInt n.toNat)
  | .float x => float x
  | .string s => string s
  | .array items => array (ofItems items)
  | .object members => object (ofMembers members)
termination_by structural value => value

def ofItems : List Json → List Value
  | [] => []
  | item :: rest => ofJson item :: ofItems rest
termination_by structural items => items

def ofMembers : List (String × Json) → List (String × Value)
  | [] => []
  | (name, value) :: rest => (name, ofJson value) :: ofMembers rest
termination_by structural members => members

end

mutual

def toJson : Value → Json
  | .null => .null
  | .bool b => .bool b
  | .integer n => .integer n
  | .float x => if x.isFinite then .float x else .null
  | .string s => .string s
  | .array items => .array (toItems items)
  | .object members => .object (toMembers members)
termination_by structural value => value

def toItems : List Value → List Json
  | [] => []
  | item :: rest => toJson item :: toItems rest
termination_by structural items => items

def toMembers : List (String × Value) → List (String × Json)
  | [] => []
  | (name, value) :: rest => (name, toJson value) :: toMembers rest
termination_by structural members => members

end

end Value

end PathQuery
