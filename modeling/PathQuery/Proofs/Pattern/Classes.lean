import PathQuery.Proofs.Pattern.Sameness

/-!
# Patterns tested against patterns

Every pattern has a sense: the text of a literal or a key, the spelling and the flags of an
expression, the ends of a range. A pattern other than `*` accepts exactly the patterns of its own
sense (`accepts_iff_sense_eq`), so acceptance sorts these patterns into classes. Patterns that are
the same have one sense (`sense_eq_of_same`), and compiled patterns of one sense agree on every key
and node (`agrees_of_sense_eq`).
-/

namespace PathQuery

namespace Range

/-- The range with its ends for a range that is written with a count. -/
def withEnds : Range → Range
  | counted start count => exclusive start (clamp (start.toInt + count.toInt))
  | r => r

theorem same_iff_withEnds_eq {a b : Range} : a.same b = true ↔ a.withEnds = b.withEnds := by
  cases a <;> cases b <;> simp [same, withEnds, halfOpen?]

theorem contains_withEnds (r : Range) : r.withEnds.contains = r.contains := by
  cases r <;> rfl

end Range

namespace Pattern

/-- What a pattern is compared by when it is tested against a pattern. -/
inductive Sense
  | any
  /-- The text of a literal or of a key of either kind. -/
  | text (text : String)
  | expression (source : String) (flags : Flags)
  /-- A range that is written with its ends. -/
  | range (range : Range)
  | parent

def sense : Pattern → Sense
  | any => .any
  | literal text => .text text
  | regex e flags => .expression e.source flags
  | range r => .range r.withEnds
  | parent => .parent
  | exact key => .text key.text

variable {p q : Pattern}

/-! ## Acceptance and sense -/

/-- A pattern other than `*` accepts the patterns of its own sense. -/
theorem accepts_iff_sense_eq (h : p.isAny = false) : p.accepts q = true ↔ p.sense = q.sense := by
  cases p with
  | any => cases h
  | range r => cases q <;> simp [accepts, same, sense, Range.same_iff_withEnds_eq]
  | literal | regex | parent | exact => cases q <;> simp [accepts, same, sense]

theorem sense_eq_of_same (h : p.same q = true) : p.sense = q.sense := by
  unfold same at h
  split at h
  · rfl
  · rw [beq_iff_eq.1 h]
  · obtain ⟨hsource, hflags⟩ := Bool.and_eq_true_iff.1 h
    rw [sense, sense, beq_iff_eq.1 hsource, beq_iff_eq.1 hflags]
  · rw [sense, sense, Range.same_iff_withEnds_eq.1 h]
  · rfl
  · rw [beq_iff_eq.1 h]
  · cases h

theorem captures?_pattern (p q : Pattern) : p.captures? (.pattern q) = accepted (p.accepts q) :=
  rfl

theorem isSome_captures?_pattern_iff (h : p.isAny = false) :
    (p.captures? (.pattern q)).isSome ↔ p.sense = q.sense := by
  rw [← accepts_iff_sense_eq h, captures?_pattern, accepted]
  split
  · rename_i haccepts
    exact iff_of_true rfl haccepts
  · rename_i haccepts
    exact iff_of_false Bool.false_ne_true haccepts

/-! ## Compiled patterns -/

theorem Agrees.symm (h : p.Agrees q) : q.Agrees p :=
  ⟨h.isParent.symm, fun hsubject => (h.captures? hsubject).symm⟩

theorem Agrees.trans {r : Pattern} (h : p.Agrees q) (h' : q.Agrees r) : p.Agrees r :=
  ⟨h.isParent.trans h'.isParent,
    fun hsubject => (h.captures? hsubject).trans (h'.captures? hsubject)⟩

/-- A key is accepted, and accepts, as its text does. -/
theorem exact_agrees_literal (key : Key) : (exact key).Agrees (literal key.text) := by
  refine ⟨rfl, fun hsubject => ?_⟩
  rw [captures?_exact hsubject, captures?_literal hsubject]

/-- Patterns of one sense agree on every key and node. -/
theorem agrees_of_sense_eq (hp : p.FromSource) (hq : q.FromSource) (h : p.sense = q.sense) :
    p.Agrees q := by
  cases p <;> cases q <;> simp only [sense, reduceCtorEq] at h
  case any.any => exact .refl any
  case literal.literal a b =>
    rw [Sense.text.inj h]
    exact .refl _
  case literal.exact a key =>
    rw [Sense.text.inj h]
    exact (exact_agrees_literal key).symm
  case exact.literal key b =>
    rw [← Sense.text.inj h]
    exact exact_agrees_literal key
  case exact.exact key key' =>
    have hliteral := exact_agrees_literal key
    rw [Sense.text.inj h] at hliteral
    exact hliteral.trans (exact_agrees_literal key').symm
  case regex.regex e flags e' flags' =>
    obtain ⟨hsource, rfl⟩ := Sense.expression.inj h
    rw [hp.eq_of_source_eq hq hsource]
    exact .refl _
  case range.range r r' =>
    refine ⟨rfl, fun hsubject => ?_⟩
    rw [captures?_range hsubject, captures?_range hsubject, ← Range.contains_withEnds r,
      ← Range.contains_withEnds r', Sense.range.inj h]
  case parent.parent => exact .refl parent

/-- The patterns that a text, a key or the step to the parent compiles to, and all ranges. -/
inductive Ordinary [Regex.Engine] : Pattern → Prop
  | compiled {token : Token} {flags : Option Flags} {p : Pattern} :
      (∀ prebuilt, token ≠ .pattern prebuilt) → ofToken (some token) flags = .ok p → Ordinary p
  | range (r : Range) : Ordinary (range r)

theorem Ordinary.fromSource [Regex.Engine] (h : p.Ordinary) : p.FromSource := by
  cases h with
  | range r => exact nofun
  | @compiled token flags _ htoken hcompiled =>
    cases token with
    | atom key =>
      cases hcompiled
      exact nofun
    | parent =>
      cases hcompiled
      exact nofun
    | pattern prebuilt => exact absurd rfl (htoken prebuilt)
    | text s =>
      obtain ⟨q, hsource, hq⟩ | ⟨error, herror⟩ | ⟨e, he⟩ := ofText_cases s
      · cases (hq flags).symm.trans hcompiled
        exact hsource
      · cases (herror flags).symm.trans hcompiled
      · obtain ⟨q, hq, hexpresses⟩ | ⟨error, herror, -⟩ := he.ofText flags
        · cases hq.symm.trans hcompiled
          exact hexpresses.fromSource he.source
        · cases herror.symm.trans hcompiled

/-! ## Classes -/

/-- **Patterns fall into classes of those that accept each other.** Among the patterns that tokens
compile to and the ranges, without `*`, acceptance is an equivalence. It holds of patterns that are
the same, and patterns that it relates accept the same keys and nodes with the same captures. `*`
accepts every pattern, and no other pattern accepts `*`. -/
theorem captures?_pattern_classes [Regex.Engine] :
    Equivalence (fun p q : {p : Pattern // p.Ordinary ∧ p.isAny = false} =>
        (p.1.captures? (.pattern q.1)).isSome = true) ∧
      (∀ p q : Pattern, p.Ordinary → q.Ordinary → p.isAny = false → q.isAny = false →
        (p.same q = true → (p.captures? (.pattern q)).isSome) ∧
          ((p.captures? (.pattern q)).isSome → ∀ subject, (∀ other, subject ≠ .pattern other) →
            p.captures? subject = q.captures? subject)) ∧
      (∀ p, any.captures? (.pattern p) = some []) ∧
      ∀ p : Pattern, p.isAny = false → p.captures? (.pattern any) = none := by
  refine ⟨?_, fun p q hp hq hpany _ => ⟨fun hsame => ?_, fun haccepts subject hsubject => ?_⟩,
    fun p => rfl, fun p hp => ?_⟩
  · have hsense : (fun p q : {p : Pattern // p.Ordinary ∧ p.isAny = false} =>
        (p.1.captures? (.pattern q.1)).isSome = true) = fun p q => p.1.sense = q.1.sense := by
      funext p q
      exact propext (isSome_captures?_pattern_iff p.2.2)
    rw [hsense]
    exact eq_equivalence.comap fun p : {p : Pattern // p.Ordinary ∧ p.isAny = false} => p.1.sense
  · exact (isSome_captures?_pattern_iff hpany).2 (sense_eq_of_same hsame)
  · have hsense := (isSome_captures?_pattern_iff hpany).1 haccepts
    exact (agrees_of_sense_eq hp.fromSource hq.fromSource hsense).captures? hsubject
  · rw [← Option.not_isSome_iff_eq_none, isSome_captures?_pattern_iff hp]
    cases p with
    | any => cases hp
    | _ => exact Sense.noConfusion

/-- A position and an escaped text, and a count that runs past the words and the ends it stands
for. -/
theorem captures?_pattern_classes_ends :
    ofText "\\1" none = .ok (literal "1") ∧
      ofToken (some (.atom (.index 1))) none = .ok (exact (.index 1)) ∧
      (literal "1").same (exact (.index 1)) = false ∧
      ((literal "1").captures? (.pattern (exact (.index 1)))).isSome ∧
      ((exact (.index 1)).captures? (.pattern (literal "1"))).isSome ∧
      (∀ scalar, (literal "1").captures? (.leaf scalar) =
        (exact (.index 1)).captures? (.leaf scalar)) ∧
      (Pattern.range (.counted 9223372036854775806 5)).same
        (.range (.exclusive 9223372036854775806 9223372036854775807)) = true ∧
      ((Pattern.range (.counted 9223372036854775806 5)).captures?
        (.pattern (.range (.exclusive 9223372036854775806 9223372036854775807)))).isSome ∧
      ∀ scalar, (Pattern.range (.counted 9223372036854775806 5)).captures? (.leaf scalar) =
        (Pattern.range (.exclusive 9223372036854775806 9223372036854775807)).captures?
          (.leaf scalar) := by
  obtain ⟨hclasses, hagree, -, -⟩ := captures?_pattern_classes
  have hliteral : (literal "1").Ordinary := @Ordinary.compiled _ (.text "\\1") none _ nofun rfl
  have hexact : (exact (.index 1)).Ordinary :=
    @Ordinary.compiled _ (.atom (.index 1)) none _ nofun rfl
  have haccepts : ((literal "1").captures? (.pattern (exact (.index 1)))).isSome := by decide
  have hsame : (Pattern.range (.counted 9223372036854775806 5)).same
      (.range (.exclusive 9223372036854775806 9223372036854775807)) = true := by decide
  have hranges := hagree _ _ (.range (.counted 9223372036854775806 5))
    (.range (.exclusive 9223372036854775806 9223372036854775807)) rfl rfl
  refine ⟨rfl, rfl, by decide, haccepts, ?_, fun scalar => ?_, hsame, hranges.1 hsame,
    fun scalar => hranges.2 (hranges.1 hsame) _ nofun⟩
  · exact @hclasses.symm ⟨literal "1", hliteral, rfl⟩ ⟨exact (.index 1), hexact, rfl⟩ haccepts
  · exact (hagree _ _ hliteral hexact rfl rfl).2 haccepts _ nofun

end Pattern

end PathQuery
