import PathQuery.Proofs.Tree.Documents

/-!
# Texts of keys

Keys are compared by their text, where a name and a position can be the same. Documents
do not mix the two: each node holds members only or items only (`Uniform`), as both
kinds of documents do (`Json.uniform`, `Value.uniform`). So in a coherent document no two
entries of a node have keys with one text (`nodup_texts`).
-/

namespace PathQuery

namespace Key

theorem text_index_inj {i j : Nat} (h : (index i).text = (index j).text) : i = j := by
  have hrepr : i.repr = j.repr := h
  rw [Nat.repr_eq_ofList_toDigits, Nat.repr_eq_ofList_toDigits, String.ofList_inj] at hrepr
  rw [← @Nat.ofDigitChars_ten_toDigits i, hrepr, Nat.ofDigitChars_ten_toDigits]

/-- Only the empty name has the empty text. -/
theorem text_eq_empty_iff {key : Key} : key.text = "" ↔ key = name "" := by
  cases key with
  | name s => exact ⟨fun h => congrArg name h, fun h => name.inj h⟩
  | index i => exact iff_of_false Nat.repr_ne_empty nofun

end Key

namespace Tree

variable {α : Type} [Tree α]

/-- A document in which each node holds members only or items only. -/
inductive Uniform : α → Prop
  | intro (node : α) :
      (∃ items : Bool, ∀ entry ∈ entries node, entry.1.index?.isSome = items) →
      (∀ entry ∈ entries node, Uniform entry.2) → Uniform node

theorem Uniform.child {node child : α} {key : Key} (h : Uniform node)
    (hmem : (key, child) ∈ entries node) : Uniform child := by
  cases h with
  | intro _ _ hbelow => exact hbelow _ hmem

theorem Uniform.key_eq_of_text_eq {node : α} (h : Uniform node) {first second : Key × α}
    (hfirst : first ∈ entries node) (hsecond : second ∈ entries node)
    (htext : first.1.text = second.1.text) : first.1 = second.1 := by
  cases h with
  | intro _ hkind _ =>
    obtain ⟨items, hitems⟩ := hkind
    have hsame := (hitems first hfirst).trans (hitems second hsecond).symm
    obtain ⟨_ | _, _⟩ := first <;> obtain ⟨_ | _, _⟩ := second
    · exact congrArg Key.name htext
    · cases hsame
    · cases hsame
    · exact congrArg Key.index (Key.text_index_inj htext)

/-- In a coherent and uniform document no two entries of a node have keys with one text. -/
theorem nodup_texts {node : α} (hc : Coherent node) (hu : Uniform node) :
    ((entries node).map fun entry => entry.1.text).Nodup := by
  have hkeys := hc.nodup
  rw [List.Nodup, List.pairwise_map] at hkeys ⊢
  refine hkeys.imp_of_mem fun hfirst hsecond hne htext => ?_
  exact hne (hu.key_eq_of_text_eq hfirst hsecond htext)

end Tree

open PathQuery.Tree

/-! ## The two kinds of documents -/

namespace Json

variable {α : Type}

theorem exists_kind_indexed (items : List α) :
    ∃ kind : Bool, ∀ entry ∈ indexed items, entry.1.index?.isSome = kind := by
  refine ⟨true, fun entry hmem => ?_⟩
  obtain ⟨i, hkey, -⟩ := mem_indexed_iff.1 hmem
  rw [hkey]
  rfl

theorem exists_kind_members (members : List (String × α)) :
    ∃ kind : Bool, ∀ entry ∈ members.map fun (name, value) => (Key.name name, value),
      entry.1.index?.isSome = kind := by
  refine ⟨false, fun entry hmem => ?_⟩
  obtain ⟨member, -, rfl⟩ := List.mem_map.1 hmem
  rfl

theorem uniform (value : Json) : Uniform value := by
  induction value using induction_on_entries with
  | h value ih =>
    refine .intro value ?_ ih
    cases value with
    | array items => exact exists_kind_indexed items
    | object members => exact exists_kind_members members
    | _ => exact ⟨true, fun entry hmem => nomatch hmem⟩

end Json

theorem Value.uniform (value : Value) : Uniform value := by
  induction value using induction_on_entries with
  | h value ih =>
    refine .intro value ?_ ih
    cases value with
    | array items => exact Json.exists_kind_indexed items
    | object members => exact Json.exists_kind_members members
    | _ => exact ⟨true, fun entry hmem => nomatch hmem⟩

end PathQuery
