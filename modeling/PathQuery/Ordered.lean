/-!
# Ordered maps

Lists of pairs in which each name stands once, in the order of first insertion.
Putting a name again replaces what it stands for and keeps its place.
-/

namespace PathQuery.Ordered

variable {α : Type}

/-- Lets `name` stand for `value`: in its place if it has one, else at the end. -/
def put (name : String) (value : α) : List (String × α) → List (String × α)
  | [] => [(name, value)]
  | pair :: rest =>
    if pair.1 = name then (name, value) :: rest else pair :: put name value rest

def ofPairs (pairs : List (String × α)) : List (String × α) :=
  pairs.foldl (fun map pair => put pair.1 pair.2 map) []

/-- Putting a name adds it at the end, or no name at all. -/
theorem names_put (name : String) (value : α) (map : List (String × α)) :
    (put name value map).map Prod.fst =
      if name ∈ map.map Prod.fst then map.map Prod.fst else map.map Prod.fst ++ [name] := by
  induction map with
  | nil => simp [put]
  | cons pair rest ih =>
    by_cases h : pair.1 = name
    · simp [put, h]
    · have h' : name ≠ pair.1 := fun e => h e.symm
      simp only [put, h, if_false, List.map_cons, ih, List.mem_cons, h', false_or]
      split <;> simp

theorem lookup_put (name : String) (value : α) (map : List (String × α)) :
    (put name value map).lookup name = some value := by
  induction map with
  | nil => simp [put]
  | cons pair rest ih =>
    obtain ⟨other, old⟩ := pair
    by_cases h : other = name
    · simp [put, h]
    · have h' : (name == other) = false := by simpa using fun e => h e.symm
      simp [put, h, List.lookup_cons, h', ih]

end PathQuery.Ordered
