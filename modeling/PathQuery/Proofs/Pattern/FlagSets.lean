import PathQuery.Proofs.Pattern.Accepts
import PathQuery.Proofs.Pattern.Quoted
import PathQuery.Proofs.Regex.Widening

/-!
# One token under two sets of flags

What a token compiles to depends little on the flags (`ofText_cases`): it is one pattern or one
error under all of them, or one expression (`CompilesTo`), for which a literal text can stand where
there are no flags (`Expresses`), unless there is no room for it. So under more flags the pattern
accepts more (`Widens`), and under flags that compare characters alike it gives the same captures
(`Agrees`). In both the expression is what its source is read as (`FromSource`).
-/

namespace PathQuery

open Regex

/-! ## Sets of flags -/

namespace Flags

/-- All flags of one set are in the other. -/
instance : LE Flags where
  le a b :=
    a.ignoreCase ≤ b.ignoreCase ∧ a.extended ≤ b.extended ∧ a.multiline ≤ b.multiline

theorem union_le_union {a b : Flags} (h : a ≤ b) (flag : Flags) : a.union flag ≤ b.union flag := by
  obtain ⟨hcase, hlayout, hlines⟩ := h
  simp only [Bool.le_iff_imp] at hcase hlayout hlines
  refine ⟨?_, ?_, ?_⟩
  · simpa only [union, Bool.le_iff_imp, Bool.or_eq_true] using Or.imp_left hcase
  · simpa only [union, Bool.le_iff_imp, Bool.or_eq_true] using Or.imp_left hlayout
  · simpa only [union, Bool.le_iff_imp, Bool.or_eq_true] using Or.imp_left hlines

theorem mode_union {a b : Flags} (h : a.mode = b.mode) (flag : Flags) :
    (a.union flag).mode = (b.union flag).mode := by
  obtain ⟨hcase, hlines⟩ := Mode.mk.inj h
  unfold mode union
  rw [hcase, hlines]

theorem mode_within {a b : Flags} (h : a ≤ b) : a.mode.Within b.mode := by
  obtain ⟨hcase, -, hlines⟩ := h
  rw [Bool.le_iff_imp] at hcase hlines
  constructor
  · intro c d hcd
    unfold mode Mode.canon at hcd ⊢
    dsimp only at hcd ⊢
    by_cases ha : a.ignoreCase = true
    · rw [if_pos ha, if_pos ha] at hcd
      rw [if_pos (hcase ha), if_pos (hcase ha)]
      exact hcd
    · rw [if_neg ha, if_neg ha] at hcd
      rw [hcd]
  · intro c hc
    unfold mode Mode.covers at hc ⊢
    rw [Bool.or_eq_true] at hc ⊢
    exact hc.imp_left hlines

end Flags

namespace Pattern

/-! ## Patterns of one expression -/

/-- A pattern that an expression compiles to under some flags: the expression itself, or the text
that it spells if there are no flags. -/
inductive Expresses (e : Regex) (flags : Flags) : Pattern → Prop
  | regex : Expresses e flags (regex (e.compiled flags.mode) flags)
  | literal {text : String} : e = .whole (.sequence (text.toList.map .char)) → flags = .empty →
      Expresses e flags (literal text)

theorem Expresses.captures?_eq {e : Regex} {flags : Flags} {p : Pattern}
    (h : p.Expresses e flags) {subject : Subject} (hsubject : ∀ other, subject ≠ .pattern other) :
    p.captures? subject =
      (Pattern.regex (e.compiled flags.mode) flags).captures? subject := by
  cases h with
  | regex => rfl
  | @literal text he hflags =>
    rw [he, hflags, spells_literal text subject hsubject,
      spells_regex text .empty rfl subject hsubject]

theorem Expresses.isParent {e : Regex} {flags : Flags} {p : Pattern} (h : p.Expresses e flags) :
    p.isParent = false := by
  cases h <;> rfl

/-- A pattern whose expression, if it is one, is what its source is read as under its flags. -/
def FromSource (p : Pattern) : Prop :=
  ∀ e flags, p = regex e flags →
    ∃ r, e = r.compiled flags.mode ∧ ofSource? flags.extended e.source.toList = some r

theorem Expresses.fromSource {e : Regex} {flags : Flags} {p : Pattern} (h : p.Expresses e flags)
    (hsource : ∀ extended, ofSource? extended e.source.toList = some e) : p.FromSource := by
  cases h with
  | regex =>
    rintro e' flags' heq
    cases heq
    exact ⟨e, rfl, hsource _⟩
  | literal => exact nofun

/-! ## Tokens under all flags -/

/-- A token that compiles to one expression whatever the flags, if there is room for it, which is
what its source is read as with layout and without. -/
structure CompilesTo [Engine] (token : String) (e : Regex) : Prop where
  source : ∀ extended, ofSource? extended e.source.toList = some e
  ofText : ∀ flags, (∃ p, ofText token flags = .ok p ∧ p.Expresses e (flags.getD .empty)) ∨
    ∃ error, ofText token flags = .error error ∧ error.refusal.isTooLarge = true

section Lexemes

variable [Engine] {token : String} (hwild : token.toList.all Glob.isWildcard = false)
  (hrange : Range.read? (Path.unescape token.toList) = none)

include hwild hrange

/-- Literal characters: a text without flags, the expression of that text with them. -/
theorem compilesTo_of_chars (hchars : (Glob.lexemes token.toList).all Lexeme.isChar = true) :
    CompilesTo token (.whole (.sequence ((Path.unescape token.toList).map .char))) := by
  have hread := ofLexemes_anchored_chars (Path.unescape token.toList)
  rw [← Glob.lexemes_eq_chars hchars] at hread
  refine ⟨fun extended => ofSource?_source hread extended, fun flags => ?_⟩
  cases flags with
  | none =>
    have hliteral : CompilesAs token none _ := .literal hwild hrange (by rw [hchars]; rfl)
    refine .inl ⟨_, hliteral.ofText_eq, .literal ?_ rfl⟩
    rw [String.toList_ofList]
  | some flags =>
    have hexpression : IsExpression token (some flags) := ⟨hwild, hrange, Bool.and_false _⟩
    exact (hexpression.ofText_eq_ok_or hread).imp_left fun hp => ⟨_, hp, .regex⟩

/-- Other lexemes: one expression, or one error. -/
theorem error_or_compilesTo_of_marks
    (hchars : (Glob.lexemes token.toList).all Lexeme.isChar = false) :
    (∃ error, ∀ flags, Pattern.ofText token flags = .error error) ∨ ∃ e, CompilesTo token e := by
  have hexpression : ∀ flags, IsExpression token flags := by
    intro flags
    exact ⟨hwild, hrange, by rw [hchars, Bool.false_and]⟩
  cases hread : Regex.ofLexemes (Glob.anchored (Glob.lexemes token.toList)) with
  | ok e =>
    exact .inr ⟨e, fun extended => ofSource?_source hread extended, fun flags =>
      ((hexpression flags).ofText_eq_ok_or hread).imp_left fun hp => ⟨_, hp, .regex⟩⟩
  | error fault =>
    exact .inl ⟨_, fun flags => (CompilesAs.malformed (hexpression flags) hread).ofText_eq⟩

end Lexemes

/-- A token gives one pattern that is no expression, one error, or one expression, whatever the
flags. -/
theorem ofText_cases [Engine] (token : String) :
    (∃ p : Pattern, p.FromSource ∧ ∀ flags, ofText token flags = .ok p) ∨
      (∃ error, ∀ flags, ofText token flags = .error error) ∨ ∃ e, CompilesTo token e := by
  cases hwild : token.toList.all Glob.isWildcard with
  | true => exact .inl ⟨any, nofun, fun flags => (CompilesAs.any hwild).ofText_eq⟩
  | false =>
    cases hrange : Range.read? (Path.unescape token.toList) with
    | some r =>
      cases hback : token.toList.contains '\\' with
      | true =>
        exact .inl ⟨literal _, nofun, fun flags =>
          (CompilesAs.escaped hwild hrange hback).ofText_eq⟩
      | false =>
        exact .inl ⟨range r, nofun, fun flags => (CompilesAs.range hwild hrange hback).ofText_eq⟩
    | none =>
      cases hchars : (Glob.lexemes token.toList).all Lexeme.isChar with
      | true => exact .inr (.inr ⟨_, compilesTo_of_chars hwild hrange hchars⟩)
      | false => exact .inr (error_or_compilesTo_of_marks hwild hrange hchars)

/-! ## Two patterns -/

/-- The second pattern accepts every key and node that the first one accepts. -/
structure Widens (p q : Pattern) : Prop where
  isParent : p.isParent = q.isParent
  isSome : ∀ {subject : Subject}, (∀ other, subject ≠ .pattern other) →
    (p.captures? subject).isSome → (q.captures? subject).isSome

/-- The two patterns accept the same keys and nodes with the same captures. -/
structure Agrees (p q : Pattern) : Prop where
  isParent : p.isParent = q.isParent
  captures? : ∀ {subject : Subject}, (∀ other, subject ≠ .pattern other) →
    p.captures? subject = q.captures? subject

theorem Widens.refl (p : Pattern) : p.Widens p :=
  ⟨rfl, fun _ h => h⟩

theorem Agrees.refl (p : Pattern) : p.Agrees p :=
  ⟨rfl, fun _ => rfl⟩

variable {e : Regex} {f f' : Flags} {p q : Pattern}

theorem Expresses.widens (hp : p.Expresses e f) (hq : q.Expresses e f') (h : f ≤ f') :
    p.Widens q := by
  refine ⟨hp.isParent.trans hq.isParent.symm, fun hsubject hsome => ?_⟩
  rw [hp.captures?_eq hsubject, captures?_regex hsubject] at hsome
  rw [hq.captures?_eq hsubject, captures?_regex hsubject]
  simp only [captures?_compiled] at hsome ⊢
  obtain ⟨captures, hcaptures⟩ := Option.isSome_iff_exists.1 hsome
  obtain ⟨s, hs, hmatch⟩ := Option.bind_eq_some_iff.1 hcaptures
  have hmatch' : (e.captures? f.mode s.toList).isSome := by
    rw [← Option.isSome_map (f := fun texts => texts.map String.ofList), hmatch]
    rfl
  rw [hs, Option.bind_some, Option.isSome_map]
  exact isSome_captures?_of_within (Flags.mode_within h) s.toList e hmatch'

theorem Expresses.agrees (hp : p.Expresses e f) (hq : q.Expresses e f') (h : f.mode = f'.mode) :
    p.Agrees q := by
  refine ⟨hp.isParent.trans hq.isParent.symm, fun hsubject => ?_⟩
  rw [hp.captures?_eq hsubject, hq.captures?_eq hsubject, captures?_regex hsubject,
    captures?_regex hsubject, h]

end Pattern

end PathQuery
