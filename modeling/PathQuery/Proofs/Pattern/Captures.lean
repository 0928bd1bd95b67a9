import PathQuery.Pattern.Matching

/-!
# What a pattern captures

A key or a node that a pattern accepts gives as many texts as the pattern has groups
(`length_of_captures?`): an expression has one text for each, a group that took no part
included, and no other pattern captures anything.
-/

namespace PathQuery.Pattern

variable {subject : Subject}

/-! ## Tests of keys and nodes, by pattern -/

theorem ne_pattern_of_text? {s : String} (h : subject.text? = some s) :
    ∀ other, subject ≠ .pattern other := by
  rintro other rfl
  cases h

theorem isSome_accepted_iff {s t : String} : (accepted (some s == some t)).isSome ↔ s = t := by
  unfold accepted
  split
  · rename_i h
    exact iff_of_true rfl (Option.some.inj (beq_iff_eq.1 h))
  · rename_i h
    exact iff_of_false Bool.false_ne_true fun heq => h (beq_iff_eq.2 (congrArg some heq))

theorem captures?_any (h : ∀ other, subject ≠ .pattern other) :
    any.captures? subject = some [] := by
  cases subject with
  | pattern other => exact absurd rfl (h other)
  | _ => rfl

theorem captures?_parent (h : ∀ other, subject ≠ .pattern other) :
    parent.captures? subject = none := by
  cases subject with
  | pattern other => exact absurd rfl (h other)
  | _ => rfl

theorem captures?_literal (h : ∀ other, subject ≠ .pattern other) (text : String) :
    (literal text).captures? subject = accepted (subject.text? == some text) := by
  cases subject with
  | pattern other => exact absurd rfl (h other)
  | _ => rfl

theorem captures?_exact (h : ∀ other, subject ≠ .pattern other) (key : Key) :
    (exact key).captures? subject = accepted (subject.text? == some key.text) := by
  cases subject with
  | pattern other => exact absurd rfl (h other)
  | _ => rfl

theorem captures?_range (h : ∀ other, subject ≠ .pattern other) (range : Range) :
    (Pattern.range range).captures? subject =
      subject.number?.bind fun x => accepted (range.contains x) := by
  cases subject with
  | pattern other => exact absurd rfl (h other)
  | _ => rfl

theorem captures?_regex (h : ∀ other, subject ≠ .pattern other) (e : Expression) (flags : Flags) :
    (regex e flags).captures? subject =
      subject.text?.bind fun s => (e.captures? s.toList).map (·.map String.ofList) := by
  cases subject with
  | pattern other => exact absurd rfl (h other)
  | _ => rfl

/-! ## The number of captures -/

theorem eq_nil_of_accepted {condition : Bool} {captures : List String}
    (h : accepted condition = some captures) : captures = [] := by
  unfold accepted at h
  split at h
  · exact (Option.some.inj h).symm
  · cases h

/-- A pattern that accepts a key or a node captures one text for each of its groups. -/
theorem length_of_captures? {p : Pattern} {captures : List String}
    (hsubject : ∀ other, subject ≠ .pattern other) (h : p.captures? subject = some captures) :
    captures.length = p.captureCount := by
  cases p with
  | any =>
    cases subject with
    | pattern other => exact absurd rfl (hsubject other)
    | _ => rw [← Option.some.inj h]; rfl
  | parent =>
    cases subject with
    | pattern other => exact absurd rfl (hsubject other)
    | _ => cases h
  | literal text =>
    rw [captures?_literal hsubject] at h
    rw [eq_nil_of_accepted h]
    rfl
  | exact key =>
    rw [captures?_exact hsubject] at h
    rw [eq_nil_of_accepted h]
    rfl
  | range range =>
    rw [captures?_range hsubject] at h
    obtain ⟨x, -, hx⟩ := Option.bind_eq_some_iff.1 h
    rw [eq_nil_of_accepted hx]
    rfl
  | regex e flags =>
    rw [captures?_regex hsubject] at h
    obtain ⟨s, -, hs⟩ := Option.bind_eq_some_iff.1 h
    obtain ⟨texts, htexts, rfl⟩ := Option.map_eq_some_iff.1 hs
    rw [List.length_map]
    exact Expression.length_of_captures? htexts

end PathQuery.Pattern
