import PathQuery.Proofs.Json.Reader

/-!
# Documents in memory and back

The two kinds of documents convert into each other part by part, so what is lost is lost at numbers.
JSON values have no infinite or undefined doubles, and there are no unsigned words in memory. A
document without the numbers that the other kind lacks comes back as it was (`ofJson_toJson`,
`toJson_ofJson`), with its members in their order.
-/

namespace PathQuery

open PathQuery.Tree

/-! ## Numbers that both kinds have -/

/-- A JSON value that is no whole number above the signed words. -/
def Json.Signed : Json → Prop
  | unsigned n => n.toNat ≤ Int64.maxValue.toInt
  | _ => True

instance : DecidablePred Json.Signed
  | .unsigned n => inferInstanceAs (Decidable (n.toNat ≤ Int64.maxValue.toInt))
  | .null | .bool _ | .integer _ | .float _ | .string _ | .array _ | .object _ => .isTrue trivial

namespace Value

/-- A value that is no infinite or undefined double. -/
def Finite : Value → Prop
  | float x => x.isFinite = true
  | _ => True

instance : DecidablePred Finite
  | float x => inferInstanceAs (Decidable (x.isFinite = true))
  | null | bool _ | integer _ | string _ | array _ | object _ => .isTrue trivial

theorem toItems_eq_map (items : List Value) : toItems items = items.map toJson := by
  induction items with
  | nil => rfl
  | cons item rest ih => rw [toItems, List.map_cons, ih]

theorem toMembers_eq_map (members : List (String × Value)) :
    toMembers members = members.map fun member => (member.1, toJson member.2) := by
  induction members with
  | nil => rfl
  | cons member rest ih => rw [toMembers, List.map_cons, ih]

/-! ## There and back -/

theorem map_eq_self {β : Type} {f : β → β} {xs : List β} (h : ∀ x ∈ xs, f x = x) :
    xs.map f = xs :=
  (List.map_congr_left h).trans (List.map_id' xs)

theorem ofJson_toJson {value : Value} (h : Throughout Finite value) :
    ofJson (toJson value) = value := by
  induction value using induction_on_parts with
  | leaf value hleaf =>
    cases value with
    | float x =>
      have hfinite : x.isFinite = true := (throughout_leaf_iff (P := Finite) rfl).1 h
      rw [toJson, if_pos hfinite, ofJson]
    | array items => cases hleaf
    | object members => cases hleaf
    | _ => rfl
  | array items ih =>
    have hitems := (throughout_array_iff.1 h).2
    rw [toJson, ofJson, toItems_eq_map, ofItems_eq_map, List.map_map]
    exact congrArg array (map_eq_self fun item hitem => ih item hitem (hitems item hitem))
  | object members ih =>
    have hmembers := (throughout_object_iff.1 h).2
    rw [toJson, ofJson, toMembers_eq_map, ofMembers_eq_map, List.map_map]
    refine congrArg object (map_eq_self fun member hmember => ?_)
    exact congrArg (Prod.mk member.1) (ih member hmember (hmembers member hmember))

theorem toJson_ofJson {value : Json} (hproper : Throughout Json.Proper value)
    (hsigned : Throughout Json.Signed value) : toJson (ofJson value) = value := by
  induction value using Json.induction_on_parts with
  | leaf value hleaf =>
    cases value with
    | float x =>
      have hfinite : x.isFinite = true := (throughout_leaf_iff (P := Json.Proper) rfl).1 hproper
      rw [ofJson, toJson, if_pos hfinite]
    | unsigned n =>
      have habove : (Json.unsigned n).Proper := (throughout_leaf_iff rfl).1 hproper
      have hwithin : (Json.unsigned n).Signed := (throughout_leaf_iff rfl).1 hsigned
      exact absurd habove (Int.not_lt.2 hwithin)
    | array items => cases hleaf
    | object members => cases hleaf
    | _ => rfl
  | array items ih =>
    have hproper := (Json.throughout_array_iff.1 hproper).2
    have hsigned := (Json.throughout_array_iff.1 hsigned).2
    rw [ofJson, toJson, ofItems_eq_map, toItems_eq_map, List.map_map]
    refine congrArg Json.array (map_eq_self fun item hitem => ?_)
    exact ih item hitem (hproper item hitem) (hsigned item hitem)
  | object members ih =>
    have hproper := (Json.throughout_object_iff.1 hproper).2
    have hsigned := (Json.throughout_object_iff.1 hsigned).2
    rw [ofJson, toJson, ofMembers_eq_map, toMembers_eq_map, List.map_map]
    refine congrArg Json.object (map_eq_self fun member hmember => ?_)
    exact congrArg (Prod.mk member.1)
      (ih member hmember (hproper member hmember) (hsigned member hmember))

/-- What comes from memory has its numbers in the form that JSON values have. -/
theorem throughout_proper_toJson (value : Value) : Throughout Json.Proper (toJson value) := by
  induction value using induction_on_parts with
  | leaf value hleaf =>
    cases value with
    | float x =>
      rw [toJson]
      split
      · rename_i hfinite
        exact (throughout_leaf_iff rfl).2 hfinite
      · exact (throughout_leaf_iff rfl).2 trivial
    | array items => cases hleaf
    | object members => cases hleaf
    | _ => exact (throughout_leaf_iff rfl).2 trivial
  | array items ih =>
    rw [toJson, toItems_eq_map, Json.throughout_array_iff, List.forall_mem_map]
    exact ⟨trivial, ih⟩
  | object members ih =>
    rw [toJson, toMembers_eq_map, Json.throughout_object_iff, List.forall_mem_map]
    exact ⟨trivial, ih⟩

/-- **Conversion loses nothing that both kinds have.** A document in memory whose doubles are all
finite comes back from JSON as it was, with its members in their order. A JSON document comes back
from memory as it was if its numbers are in the form that JSON values have and no whole number is
above the signed words. The numbers of a document that is read, or that comes from memory, are in
that form. -/
theorem conversion_lossless :
    (∀ value : Value, Throughout Finite value → ofJson (toJson value) = value) ∧
      (∀ value : Json, Throughout Json.Proper value → Throughout Json.Signed value →
        toJson (ofJson value) = value) ∧
      (∀ limit text value, Json.read limit text = .ok value → Throughout Json.Proper value) ∧
      ∀ value : Value, Throughout Json.Proper (toJson value) :=
  ⟨fun _ => ofJson_toJson, fun _ => toJson_ofJson, fun _ _ _ => Json.throughout_proper_of_read,
    throughout_proper_toJson⟩

/-- Minus zero, a whole double beside the integer it equals, and words at both ends. -/
theorem conversion_lossless_kinds :
    ∃ (value : Value) (json : Json),
      value = .object [("b", .array [.float (.zero true), .float (.ofInt 3), .integer 3]),
        ("a", .integer (-9223372036854775808))] ∧
      json = .object
        [("z", .array [.float (.ofInt 9007199254740992), .integer 9223372036854775807]),
          ("", .object [])] ∧
      Throughout Finite value ∧ Throughout Json.Proper json ∧ Throughout Json.Signed json ∧
      ofJson (toJson value) = value ∧ toJson (ofJson json) = json := by
  obtain ⟨hvalue, hjson, -, -⟩ := conversion_lossless
  refine ⟨_, _, rfl, rfl, ?_, ?_, ?_, hvalue _ ?_, hjson _ ?_ ?_⟩
  all_goals decide +kernel

end Value

end PathQuery
