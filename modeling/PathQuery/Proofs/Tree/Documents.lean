import Mathlib.Data.List.Nodup
import PathQuery.Proofs.Tree.Preorder
import PathQuery.Value

/-!
# Coherent documents

A JSON document, or one in memory, is coherent exactly if none of its objects holds a
name twice (`Json.coherent_object_iff`, `Value.coherent_object_iff`); arrays and leaves
add no condition. For JSON documents this can be computed (`Json.coherent_iff`), and it
stays so in memory (`Value.coherent_ofJson`).
-/

namespace PathQuery

open PathQuery.Tree

namespace Json

/-! ## Items under their positions -/

theorem mem_indexed_iff {α : Type} {items : List α} {key : Key} {item : α} :
    (key, item) ∈ indexed items ↔ ∃ i, key = .index i ∧ items[i]? = some item := by
  rw [indexed, List.mem_reverse, List.mem_map]
  constructor
  · rintro ⟨⟨x, i⟩, hmem, heq⟩
    rw [List.mem_zipIdx_iff_getElem?] at hmem
    cases heq
    exact ⟨i, rfl, hmem⟩
  · rintro ⟨i, rfl, hi⟩
    exact ⟨(item, i), List.mem_zipIdx_iff_getElem?.2 hi, rfl⟩

theorem keys_indexed {α : Type} (items : List α) :
    (indexed items).map Prod.fst = ((List.range items.length).map Key.index).reverse := by
  rw [indexed, List.map_reverse, List.map_map, List.range_eq_range', ← List.zipIdx_map_snd 0 items,
    List.map_map]
  rfl

theorem nodup_keys_indexed {α : Type} (items : List α) :
    ((indexed items).map Prod.fst).Nodup := by
  rw [keys_indexed, List.nodup_reverse, List.nodup_map_iff (fun _ _ h => Key.index.inj h)]
  exact List.nodup_range

theorem lookup_indexed {α : Type} (items : List α) (i : Nat) :
    (indexed items).lookup (.index i) = items[i]? := by
  ext item
  rw [lookup_eq_some_iff (nodup_keys_indexed items), mem_indexed_iff]
  constructor
  · rintro ⟨j, hj, hitem⟩
    cases hj
    exact hitem
  · intro hitem
    exact ⟨i, rfl, hitem⟩

theorem lookup_indexed_name {α : Type} (items : List α) (name : String) :
    (indexed items).lookup (.name name) = none := by
  rw [Option.eq_none_iff_forall_ne_some]
  intro item hitem
  rw [lookup_eq_some_iff (nodup_keys_indexed items), mem_indexed_iff] at hitem
  obtain ⟨i, hi, -⟩ := hitem
  cases hi

theorem forall_mem_indexed_iff {α : Type} {items : List α} {P : α → Prop} :
    (∀ entry ∈ indexed items, P entry.2) ↔ ∀ item ∈ items, P item := by
  rw [← List.forall_mem_map (P := P), map_snd_indexed]
  simp only [List.mem_reverse]

/-! ## Members under their names -/

theorem keys_members {α : Type} (members : List (String × α)) :
    (members.map fun (name, value) => (Key.name name, value)).map Prod.fst =
      (members.map Prod.fst).map Key.name := by
  rw [List.map_map, List.map_map]
  rfl

theorem nodup_keys_members_iff {α : Type} {members : List (String × α)} :
    ((members.map fun (name, value) => (Key.name name, value)).map Prod.fst).Nodup ↔
      (members.map Prod.fst).Nodup := by
  rw [keys_members, List.nodup_map_iff (fun _ _ h => Key.name.inj h)]

theorem lookup_members {α : Type} (members : List (String × α)) (name : String) :
    (members.map fun (name, value) => (Key.name name, value)).lookup (.name name) =
      members.lookup name := by
  induction members with
  | nil => rfl
  | cons member rest ih =>
    obtain ⟨first, value⟩ := member
    by_cases h : name = first
    · subst h
      simp
    · have hname : (name == first) = false := by simpa using h
      have hkey : (Key.name name == Key.name first) = false := by simpa using h
      rw [List.map_cons, List.lookup_cons, List.lookup_cons, hname, hkey]
      exact ih

theorem lookup_members_index {α : Type} (members : List (String × α)) (i : Nat) :
    (members.map fun (name, value) => (Key.name name, value)).lookup (.index i) = none := by
  induction members with
  | nil => rfl
  | cons member rest ih =>
    obtain ⟨first, value⟩ := member
    have hkey : (Key.index i == Key.name first) = false := by simp
    rw [List.map_cons, List.lookup_cons, hkey]
    exact ih

end Json

/-! ## Documents from their parts -/

namespace Json

/-- What holds of leaves, and of arrays and objects whose parts it holds of, holds of every
value. -/
theorem induction_on_parts {motive : Json → Prop}
    (leaf : ∀ value, value.scalar?.isSome → motive value)
    (array : ∀ items, (∀ item ∈ items, motive item) → motive (array items))
    (object : ∀ members, (∀ member ∈ members, motive member.2) → motive (object members))
    (value : Json) : motive value := by
  induction value using induction_on_entries with
  | h value ih =>
    cases value with
    | array items => exact array items (forall_mem_indexed_iff.1 ih)
    | object members =>
      exact object members fun member hmember =>
        ih (.name member.1, member.2) (List.mem_map.2 ⟨member, hmember, rfl⟩)
    | _ => exact leaf _ rfl

theorem throughout_array_iff {P : Json → Prop} {items : List Json} :
    Throughout P (array items) ↔ P (array items) ∧ ∀ item ∈ items, Throughout P item := by
  rw [throughout_iff]
  exact and_congr_right fun _ => forall_mem_indexed_iff

theorem throughout_object_iff {P : Json → Prop} {members : List (String × Json)} :
    Throughout P (object members) ↔
      P (object members) ∧ ∀ member ∈ members, Throughout P member.2 := by
  rw [throughout_iff]
  exact and_congr_right fun _ => List.forall_mem_map

end Json

namespace Value

theorem induction_on_parts {motive : Value → Prop}
    (leaf : ∀ value, value.scalar?.isSome → motive value)
    (array : ∀ items, (∀ item ∈ items, motive item) → motive (array items))
    (object : ∀ members, (∀ member ∈ members, motive member.2) → motive (object members))
    (value : Value) : motive value := by
  induction value using induction_on_entries with
  | h value ih =>
    cases value with
    | array items => exact array items (Json.forall_mem_indexed_iff.1 ih)
    | object members =>
      exact object members fun member hmember =>
        ih (.name member.1, member.2) (List.mem_map.2 ⟨member, hmember, rfl⟩)
    | _ => exact leaf _ rfl

theorem throughout_array_iff {P : Value → Prop} {items : List Value} :
    Throughout P (array items) ↔ P (array items) ∧ ∀ item ∈ items, Throughout P item := by
  rw [throughout_iff]
  exact and_congr_right fun _ => Json.forall_mem_indexed_iff

theorem throughout_object_iff {P : Value → Prop} {members : List (String × Value)} :
    Throughout P (object members) ↔
      P (object members) ∧ ∀ member ∈ members, Throughout P member.2 := by
  rw [throughout_iff]
  exact and_congr_right fun _ => List.forall_mem_map

end Value

/-! ## Nodes that look their entries up -/

namespace Tree

variable {α : Type} [Tree α] {node : α}
  (hlookup : ∀ key, child? node key = (entries node).lookup key)

include hlookup

theorem coherent_iff_of_lookup :
    Coherent node ↔
      ((entries node).map Prod.fst).Nodup ∧ ∀ entry ∈ entries node, Coherent entry.2 := by
  constructor
  · intro h
    exact ⟨h.nodup, fun entry hmem => h.child hmem⟩
  · rintro ⟨hnodup, hbelow⟩
    exact .intro node hnodup hlookup hbelow

theorem coherent_items_iff {items : List α} (hentries : entries node = Json.indexed items) :
    Coherent node ↔ ∀ item ∈ items, Coherent item := by
  rw [coherent_iff_of_lookup hlookup, hentries]
  constructor
  · rintro ⟨-, hbelow⟩ item hitem
    obtain ⟨i, hi⟩ := List.mem_iff_getElem?.1 hitem
    exact hbelow (.index i, item) (Json.mem_indexed_iff.2 ⟨i, rfl, hi⟩)
  · intro h
    refine ⟨Json.nodup_keys_indexed items, ?_⟩
    rintro ⟨key, item⟩ hmem
    obtain ⟨i, -, hi⟩ := Json.mem_indexed_iff.1 hmem
    exact h item (List.mem_of_getElem? hi)

theorem coherent_members_iff {members : List (String × α)}
    (hentries : entries node = members.map fun (name, value) => (Key.name name, value)) :
    Coherent node ↔ (members.map Prod.fst).Nodup ∧ ∀ member ∈ members, Coherent member.2 := by
  rw [coherent_iff_of_lookup hlookup, hentries]
  exact and_congr Json.nodup_keys_members_iff List.forall_mem_map

theorem coherent_of_scalar (h : (scalar? node).isSome) : Coherent node := by
  rw [coherent_iff_of_lookup hlookup, entries_of_scalar node h]
  exact ⟨List.nodup_nil, fun entry hmem => nomatch hmem⟩

end Tree

/-! ## The two kinds of documents -/

namespace Json

theorem child?_eq_lookup (value : Json) (key : Key) :
    Tree.child? value key = (Tree.entries value).lookup key := by
  cases value with
  | array items =>
    cases key with
    | name name => exact (lookup_indexed_name items name).symm
    | index i => exact (lookup_indexed items i).symm
  | object members =>
    cases key with
    | name name => exact (lookup_members members name).symm
    | index i => exact (lookup_members_index members i).symm
  | _ => cases key <;> rfl

theorem coherent_array_iff {items : List Json} :
    Coherent (array items) ↔ ∀ item ∈ items, Coherent item :=
  coherent_items_iff (child?_eq_lookup _) rfl

theorem coherent_object_iff {members : List (String × Json)} :
    Coherent (object members) ↔
      (members.map Prod.fst).Nodup ∧ ∀ member ∈ members, Coherent member.2 :=
  coherent_members_iff (child?_eq_lookup _) rfl

theorem coherent_leaf {value : Json} (h : value.scalar?.isSome) : Coherent value :=
  coherent_of_scalar (child?_eq_lookup value) h

mutual

/-- Whether no object in a value holds a name twice. -/
def distinct : Json → Bool
  | .array items => itemsDistinct items
  | .object members => decide (members.map Prod.fst).Nodup && membersDistinct members
  | _ => true
termination_by structural value => value

/-- Whether no object in a list of items holds a name twice. -/
def itemsDistinct : List Json → Bool
  | [] => true
  | item :: rest => distinct item && itemsDistinct rest
termination_by structural items => items

/-- Whether no object in the values of members holds a name twice. -/
def membersDistinct : List (String × Json) → Bool
  | [] => true
  | (_, value) :: rest => distinct value && membersDistinct rest
termination_by structural members => members

end

theorem itemsDistinct_iff {items : List Json} :
    itemsDistinct items = true ↔ ∀ item ∈ items, distinct item = true := by
  induction items with
  | nil => simp [itemsDistinct]
  | cons item rest ih => simp [itemsDistinct, ih]

theorem membersDistinct_iff {members : List (String × Json)} :
    membersDistinct members = true ↔ ∀ member ∈ members, distinct member.2 = true := by
  induction members with
  | nil => simp [membersDistinct]
  | cons member rest ih => simp [membersDistinct, ih]

/-- A JSON document is coherent if no object in it holds a name twice. -/
theorem coherent_iff {value : Json} : Coherent value ↔ distinct value = true := by
  induction value using induction_on_entries with
  | h value ih =>
    cases value with
    | array items =>
      rw [coherent_array_iff, distinct, itemsDistinct_iff]
      refine forall₂_congr fun item hitem => ?_
      obtain ⟨i, hi⟩ := List.mem_iff_getElem?.1 hitem
      exact ih (.index i, item) (mem_indexed_iff.2 ⟨i, rfl, hi⟩)
    | object members =>
      rw [coherent_object_iff, distinct, Bool.and_eq_true, decide_eq_true_iff,
        membersDistinct_iff]
      refine and_congr_right fun _ => forall₂_congr fun member hmember => ?_
      exact ih (.name member.1, member.2) (List.mem_map.2 ⟨member, hmember, rfl⟩)
    | _ => exact ⟨fun _ => rfl, fun _ => coherent_leaf rfl⟩

instance (value : Json) : Decidable (Coherent value) := decidable_of_iff _ coherent_iff.symm

end Json

namespace Value

theorem child?_eq_lookup (value : Value) (key : Key) :
    Tree.child? value key = (Tree.entries value).lookup key := by
  cases value with
  | array items =>
    cases key with
    | name name => exact (Json.lookup_indexed_name items name).symm
    | index i => exact (Json.lookup_indexed items i).symm
  | object members =>
    cases key with
    | name name => exact (Json.lookup_members members name).symm
    | index i => exact (Json.lookup_members_index members i).symm
  | _ => cases key <;> rfl

theorem coherent_array_iff {items : List Value} :
    Coherent (array items) ↔ ∀ item ∈ items, Coherent item :=
  coherent_items_iff (child?_eq_lookup _) rfl

theorem coherent_object_iff {members : List (String × Value)} :
    Coherent (object members) ↔
      (members.map Prod.fst).Nodup ∧ ∀ member ∈ members, Coherent member.2 :=
  coherent_members_iff (child?_eq_lookup _) rfl

theorem coherent_leaf {value : Value} (h : value.scalar?.isSome) : Coherent value :=
  coherent_of_scalar (child?_eq_lookup value) h

theorem ofItems_eq_map (items : List Json) : ofItems items = items.map ofJson := by
  induction items with
  | nil => rfl
  | cons item rest ih => rw [ofItems, List.map_cons, ih]

theorem ofMembers_eq_map (members : List (String × Json)) :
    ofMembers members = members.map fun member => (member.1, ofJson member.2) := by
  induction members with
  | nil => rfl
  | cons member rest ih => rw [ofMembers, List.map_cons, ih]

/-- A coherent JSON document stays coherent in memory. -/
theorem coherent_ofJson {value : Json} (h : Coherent value) : Coherent (ofJson value) := by
  induction h with
  | intro value hnodup hlookup hbelow ih =>
    cases value with
    | array items =>
      rw [ofJson, coherent_array_iff, ofItems_eq_map, List.forall_mem_map]
      intro item hitem
      obtain ⟨i, hi⟩ := List.mem_iff_getElem?.1 hitem
      exact ih (.index i, item) (Json.mem_indexed_iff.2 ⟨i, rfl, hi⟩)
    | object members =>
      have hnames : ((ofMembers members).map Prod.fst).Nodup := by
        rw [ofMembers_eq_map, List.map_map]
        exact Json.nodup_keys_members_iff.1 hnodup
      refine coherent_object_iff.2 ⟨hnames, ?_⟩
      rw [ofMembers_eq_map, List.forall_mem_map]
      exact fun member hmember =>
        ih (.name member.1, member.2) (List.mem_map.2 ⟨member, hmember, rfl⟩)
    | _ => exact coherent_leaf rfl

end Value

end PathQuery
