import PathQuery.Proofs.Query.Shape
import PathQuery.Proofs.Query.Twins

/-!
# One document in several models

A query reads a document through its entries, its leaves and look-ups. A document of another type
that lists the same entries and leaves (`SameListing`) and looks children up among them is a twin
of a JSON document (`twins_sameListing`), and so is the document that the JSON document becomes
in memory (`twins_ofJson`), but for whole numbers above the signed words. These become doubles,
which are the same numbers but have other texts. `find_models` says what this makes of answers.
-/

namespace PathQuery

open PathQuery.Tree

/-! ## Documents with the same listing -/

/-- The same leaf, or the same keys in the same order and such nodes under them. -/
inductive SameListing {α β : Type} [Tree α] [Tree β] : α → β → Prop
  | intro (a : α) (b : β) :
      scalar? a = scalar? b → (entries a).map Prod.fst = (entries b).map Prod.fst →
      (∀ pair ∈ (entries a).zip (entries b), SameListing pair.1.2 pair.2.2) → SameListing a b

namespace SameListing

variable {α β : Type} [Tree α] [Tree β] {a : α} {b : β}

theorem scalar?_eq (h : SameListing a b) : scalar? a = scalar? b := by
  cases h with
  | intro _ _ hscalar => exact hscalar

theorem forall₂_entries (h : SameListing a b) :
    List.Forall₂ (fun x y => x.1 = y.1 ∧ SameListing x.2 y.2) (entries a) (entries b) := by
  cases h with
  | intro _ _ _ hkeys hbelow =>
    rw [← List.forall₂_eq_eq_eq, List.forall₂_map_left_iff, List.forall₂_map_right_iff,
      List.forall₂_iff_zip] at hkeys
    obtain ⟨hlength, hkey⟩ := hkeys
    exact List.forall₂_iff_zip.2 ⟨hlength, fun hmem => ⟨hkey hmem, hbelow _ hmem⟩⟩

end SameListing

theorem twins_sameListing {α β : Type} [Tree α] [Tree β]
    (ha : ∀ (node : α) key, child? node key = (entries node).lookup key)
    (hb : ∀ (node : β) key, child? node key = (entries node).lookup key) :
    Tree.Twins (SameListing (α := α) (β := β)) :=
  .of_lookup SameListing.forall₂_entries ha hb

/-- A JSON document of which only the entries and leaves are known: children are looked up
among the entries. -/
structure Listed where
  value : Json

namespace Listed

instance : Tree Listed where
  entries listed := (entries listed.value).map fun entry => (entry.1, ⟨entry.2⟩)
  scalar? listed := scalar? listed.value
  size listed := size listed.value
  size_entries listed := by
    rw [total_map]
    exact size_entries listed.value
  entries_of_scalar listed h := by
    rw [entries_of_scalar listed.value h]
    rfl

theorem entries_eq (value : Json) :
    entries (⟨value⟩ : Listed) = (entries value).map fun entry => (entry.1, ⟨entry.2⟩) := rfl

theorem sameListing (value : Json) : SameListing value (⟨value⟩ : Listed) := by
  induction value using induction_on_entries with
  | h value ih =>
    refine .intro _ _ rfl ?_ fun pair hpair => ?_
    · rw [entries_eq, List.map_map]
      rfl
    · rw [entries_eq, ← List.map_prod_left_eq_zip] at hpair
      obtain ⟨entry, hentry, rfl⟩ := List.mem_map.1 hpair
      exact ih entry hentry

end Listed

/-! ## JSON documents in memory -/

namespace Value

theorem indexed_map {γ δ : Type} (f : γ → δ) (items : List γ) :
    Json.indexed (items.map f) = (Json.indexed items).map fun entry => (entry.1, f entry.2) := by
  unfold Json.indexed
  rw [List.zipIdx_map, List.map_reverse, List.map_map, List.map_map]
  rfl

/-- In memory a document has the same entries, each in memory as well. -/
theorem entries_ofJson (value : Json) :
    Tree.entries (ofJson value) =
      (Tree.entries value).map fun entry => (entry.1, ofJson entry.2) := by
  cases value with
  | array items =>
    rw [ofJson, ofItems_eq_map]
    exact indexed_map ofJson items
  | object members =>
    rw [ofJson, ofMembers_eq_map]
    refine (List.map_map ..).trans ((List.map_map ..).trans ?_).symm
    rfl
  | _ => rfl

theorem scalar?_ofJson {value : Json} (h : ∀ n, value ≠ .unsigned n) :
    Tree.scalar? (ofJson value) = Tree.scalar? value := by
  cases value with
  | unsigned n => exact absurd rfl (h n)
  | _ => rfl

theorem number?_ofJson (value : Json) :
    (Subject.ofNode (ofJson value)).number? = (Subject.ofNode value).number? := by
  cases value <;> rfl

/-- A property that holds of the entries of each value that it holds of. -/
def Inherited (P : Json → Prop) : Prop :=
  ∀ value, P value → ∀ entry ∈ Tree.entries value, P entry.2

theorem twins_ofJson {P : Json → Prop} (h : Inherited P) :
    Tree.Twins (fun a b => P a ∧ b = ofJson a) := by
  refine .of_lookup ?_ Json.child?_eq_lookup Value.child?_eq_lookup
  rintro a b ⟨ha, rfl⟩
  rw [entries_ofJson, List.forall₂_map_right_iff, List.forall₂_same]
  exact fun entry hentry => ⟨rfl, h a ha entry hentry, rfl⟩

end Value

/-! ## Patterns -/

namespace Pattern

/-- Whether a pattern looks at the texts of leaves. -/
def readsText : Pattern → Bool
  | literal _ | regex _ _ | exact _ => true
  | any | range _ | parent => false

/-- A pattern that looks at no texts sees only numbers. -/
theorem captures?_of_number? {p : Pattern} (hp : p.readsText = false) {subject other : Subject}
    (hsubject : ∀ q, subject ≠ .pattern q) (hother : ∀ q, other ≠ .pattern q)
    (h : subject.number? = other.number?) : p.captures? subject = p.captures? other := by
  cases p with
  | any => rw [captures?_any hsubject, captures?_any hother]
  | parent => rw [captures?_parent hsubject, captures?_parent hother]
  | range r => rw [captures?_range hsubject, captures?_range hother, h]
  | _ => cases hp

end Pattern

namespace Matcher

theorem Twins.refl_of_matchValue {α β : Type} [Tree α] [Tree β] {R : α → β → Prop} {m : Matcher}
    (h : ∀ {a b}, R a b → m.matchValue a = m.matchValue b) : m.Twins R m :=
  ⟨rfl, rfl, rfl, fun _ => rfl, h⟩

theorem matchValue_of_scalar? {α β : Type} [Tree α] [Tree β] {a : α} {b : β}
    (h : scalar? a = scalar? b) (m : Matcher) : m.matchValue a = m.matchValue b := by
  unfold matchValue Subject.ofNode
  rw [h]

theorem matchValue_ofJson {m : Matcher} (h : ∀ p ∈ m.value, p.readsText = false) (value : Json) :
    m.matchValue value = m.matchValue (Value.ofJson value) := by
  unfold matchValue
  cases hvalue : m.value with
  | none => rfl
  | some p =>
    exact Pattern.captures?_of_number? (h p hvalue) (ofNode_ne_pattern _) (ofNode_ne_pattern _)
      (Value.number?_ofJson value).symm

end Matcher

namespace Query

theorem map_location_find_sameListing {α β : Type} [Tree α] [Tree β] (query : Query)
    (ha : ∀ (node : α) key, child? node key = (entries node).lookup key)
    (hb : ∀ (node : β) key, child? node key = (entries node).lookup key) {value : α} {other : β}
    (h : SameListing value other) :
    (find query value).map Answer.location = (find query other).map Answer.location := by
  refine map_location_find_of_twins (twins_sameListing ha hb) (List.forall₂_same.2 ?_) h
  intro m _
  exact .refl_of_matchValue fun hab => Matcher.matchValue_of_scalar? hab.scalar?_eq m

theorem map_location_find_ofJson_of_signed (query : Query) {value : Json}
    (h : ∀ path n, ¬ Leads value path (.unsigned n)) :
    (find query value).map Answer.location =
      (find query (Value.ofJson value)).map Answer.location := by
  have hbelow : Value.Inherited fun value => ∀ path n, ¬ Leads value path (.unsigned n) :=
    fun value hvalue entry hentry path n hleads =>
      hvalue (entry.1 :: path) n (leads_cons_iff.2 ⟨entry.2, hentry, hleads⟩)
  refine map_location_find_of_twins (Value.twins_ofJson hbelow) (List.forall₂_same.2 ?_) ⟨h, rfl⟩
  rintro m -
  refine .refl_of_matchValue ?_
  rintro a b ⟨ha, rfl⟩
  refine Matcher.matchValue_of_scalar? (Value.scalar?_ofJson ?_).symm m
  rintro n rfl
  exact ha [] n (.here _)

theorem map_location_find_ofJson_of_readsText {query : Query}
    (h : ∀ m ∈ query.matchers, ∀ p ∈ m.value, p.readsText = false) (value : Json) :
    (find query value).map Answer.location =
      (find query (Value.ofJson value)).map Answer.location := by
  have htrue : Value.Inherited fun _ => True := fun _ _ _ _ => trivial
  refine map_location_find_of_twins (Value.twins_ofJson htrue) (List.forall₂_same.2 ?_)
    ⟨trivial, rfl⟩
  intro m hm
  refine .refl_of_matchValue ?_
  rintro a b ⟨-, rfl⟩
  exact Matcher.matchValue_ofJson (h m hm) a

/-- **Models of a document agree.** A query has the same answers, with their captures and splats,
in a JSON document and in any document with the same listing that looks children up among its
entries. It has them in memory as well, if the document holds no whole number above the signed
words or no value of the query looks at texts. -/
theorem find_models (query : Query) (value : Json) :
    (∀ {β : Type} [Tree β] (other : β),
      (∀ (node : β) key, child? node key = (entries node).lookup key) → SameListing value other →
        (find query value).map Answer.location = (find query other).map Answer.location) ∧
      ((∀ path n, ¬ Leads value path (.unsigned n)) ∨
          (∀ m ∈ query.matchers, ∀ p ∈ m.value, p.readsText = false) →
        (find query value).map Answer.location =
          (find query (Value.ofJson value)).map Answer.location) := by
  refine ⟨fun other hother h => ?_, fun h => ?_⟩
  · exact map_location_find_sameListing query Json.child?_eq_lookup hother h
  · rcases h with hsigned | hvalues
    · exact map_location_find_ofJson_of_signed query hsigned
    · exact map_location_find_ofJson_of_readsText hvalues value

/-- A range and a step to the parent, past a whole number above the signed words. -/
theorem find_models_unsigned :
    ∃ (query : Query) (value : Json),
      query = ⟨[⟨none, some (.range (.inclusive 2 9223372036854775807)), true⟩,
        ⟨some .parent, some .any, true⟩]⟩ ∧
      value = .array [.integer 1, .object [("a", .unsigned 9223372036854775808)]] ∧
      (∀ (node : Listed) key, child? node key = (entries node).lookup key) ∧
      SameListing value (⟨value⟩ : Listed) ∧
      (∀ m ∈ query.matchers, ∀ p ∈ m.value, p.readsText = false) ∧
      (find query value).map Answer.location =
        [⟨[.index 1], [], [⟨0, [.index 1, .name "a"]⟩, ⟨1, []⟩]⟩] ∧
      (find query value).map Answer.location =
        (find query (⟨value⟩ : Listed)).map Answer.location ∧
      (find query value).map Answer.location =
        (find query (Value.ofJson value)).map Answer.location := by
  refine ⟨_, _, rfl, rfl, fun _ _ => rfl, Listed.sameListing _, ?_, ?_, ?_, ?_⟩
  · decide
  · decide +kernel
  · exact (find_models _ _).1 _ (fun _ _ => rfl) (Listed.sameListing _)
  · exact (find_models _ _).2 (.inr (by decide))

end Query

end PathQuery
