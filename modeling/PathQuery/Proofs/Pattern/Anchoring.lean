import PathQuery.Proofs.Pattern.Assembly
import PathQuery.Proofs.Pattern.Captures

/-!
# Which tokens match whole texts

Token text stands in a group between the marks of both ends of a text. Its brackets can close that
group and open another one, so that a bar of the token can stand outside all groups, between
alternatives that have one of the marks each: such a token accepts texts that it covers a part of
(`captures?_bar_outside`). If every bar stands inside a group (`barsInside`), as it does where the
brackets pair up (`barsInside_of_nested`), the expression is one sequence from mark to mark, and
what it matches is the whole text (`whole_of_captures?`).
-/

namespace PathQuery

open Regex

/-! ## Bars inside groups -/

namespace Glob

/-- Whether every bar stands inside a group, with `depth` groups open before the lexemes. -/
def barsInside : Nat → List Lexeme → Bool
  | _, [] => true
  | depth, .groupStart :: rest => barsInside (depth + 1) rest
  | depth, .plainStart :: rest => barsInside (depth + 1) rest
  | depth, .groupEnd :: rest => barsInside (depth - 1) rest
  | depth, .bar :: rest => depth != 0 && barsInside depth rest
  | depth, _ :: rest => barsInside depth rest

theorem barsInside_append_groupEnd (depth : Nat) (lexemes : List Lexeme) :
    barsInside depth (lexemes ++ [.groupEnd]) = barsInside depth lexemes := by
  induction lexemes generalizing depth with
  | nil => rfl
  | cons lexeme lexemes ih =>
    cases lexeme with
    | bar => exact congrArg (depth != 0 && ·) (ih depth)
    | _ => exact ih _

/-- Symbols whose brackets pair up have no bar outside the groups around them. -/
theorem Nested.barsInside_append {t : List Symbol} (h : Nested t) (depth : Nat) (covered : Bool)
    (rest : List Symbol) :
    ∃ covered', barsInside (depth + 1) (lexemesOf covered (t ++ rest)) =
      barsInside (depth + 1) (lexemesOf covered' rest) := by
  induction h generalizing depth covered rest with
  | nil => exact ⟨covered, rfl⟩
  | @cons m t hopening hclosing ht ih =>
    cases m with
    | opening => exact absurd rfl hopening
    | closing => exact absurd rfl hclosing
    | plain c => exact ih depth false rest
    | bar => exact ih depth false rest
    | star => cases covered <;> exact ih depth true rest
    | question =>
      cases covered with
      | false => exact ih depth false rest
      | true => exact ih depth true rest
  | @group body t hbody ht ihbody iht =>
    obtain ⟨inside, hinside⟩ := ihbody (depth + 1) false (.closing :: (t ++ rest))
    obtain ⟨covered', hrest⟩ := iht depth false rest
    refine ⟨covered', ?_⟩
    rw [List.cons_append, List.append_assoc, List.cons_append]
    exact hinside.trans hrest

theorem barsInside_of_nested {text : List Char} (h : Nested (symbols text)) :
    barsInside 1 (lexemes text) = true := by
  obtain ⟨_, hinside⟩ := h.barsInside_append 0 false []
  rw [List.append_nil, ← lexemesFrom_eq] at hinside
  exact hinside

end Glob

/-! ## Sequences from mark to mark -/

namespace Regex

/-- The level outside all groups. -/
def base (level : Level) : List OpenGroup → Level
  | [] => level
  | opened :: outer => base opened.outer outer

/-- Outside all groups stands one sequence, which begins with the mark of the start. -/
structure Based (level : Level) (outer : List OpenGroup) : Prop where
  alternatives : (base level outer).alternatives = []
  items : ∃ items, (base level outer).items = items ++ [textStart]

section Based

variable {level : Level} {outer : List OpenGroup}

theorem Based.push (h : Based level outer) (e : Regex) : Based (level.push e) outer := by
  cases outer with
  | nil =>
    obtain ⟨items, hitems⟩ := h.items
    refine ⟨h.alternatives, e :: items, ?_⟩
    exact congrArg (e :: ·) hitems
  | cons opened outer => exact ⟨h.alternatives, h.items⟩

theorem Based.next (h : Based level outer) (hinside : outer ≠ []) : Based level.next outer := by
  cases outer with
  | nil => exact absurd rfl hinside
  | cons opened outer => exact ⟨h.alternatives, h.items⟩

theorem Based.open (h : Based level outer) (captures : Bool) (position : Nat) :
    Based {} (⟨captures, position, level⟩ :: outer) :=
  ⟨h.alternatives, h.items⟩

theorem Based.close {opened : OpenGroup} (h : Based level (opened :: outer)) (body : Regex) :
    Based (opened.close body) outer := by
  have houter : Based opened.outer outer := ⟨h.alternatives, h.items⟩
  exact houter.push _

end Based

/-- Lexemes with every bar inside a group, and the mark of the end behind them, go on with the
sequence that begins with the mark of the start. -/
theorem exists_sequence_of_assemble {lexemes : List Lexeme} {position : Nat} {level : Level}
    {outer : List OpenGroup} {e : Regex}
    (h : assemble (lexemes ++ [.textEnd]) position level outer = .ok e)
    (hbars : Glob.barsInside outer.length lexemes = true) (hbased : Based level outer) :
    ∃ middle, e = sequence (textStart :: (middle ++ [textEnd])) := by
  induction lexemes generalizing position level outer with
  | nil =>
    cases outer with
    | cons opened outer => cases h
    | nil =>
      obtain ⟨items, hitems⟩ := hbased.items
      have halternatives : level.alternatives = [] := hbased.alternatives
      have hfinish : (level.push textEnd).finish = e := Except.ok.inj h
      refine ⟨items.reverse, ?_⟩
      change level.items = items ++ [textStart] at hitems
      rw [← hfinish, Level.finish, Level.next, Level.push, halternatives, hitems]
      have hreverse : (textEnd :: (items ++ [textStart])).reverse =
          textStart :: (items.reverse ++ [textEnd]) := by
        rw [List.reverse_cons, List.reverse_append]
        rfl
      rw [← hreverse]
      rfl
  | cons lexeme lexemes ih =>
    cases lexeme with
    | groupStart => exact ih h hbars (hbased.open _ _)
    | plainStart => exact ih h hbars (hbased.open _ _)
    | groupEnd =>
      cases outer with
      | nil => cases h
      | cons opened outer => exact ih h hbars (hbased.close _)
    | bar =>
      obtain ⟨hdepth, hrest⟩ := Bool.and_eq_true_iff.1 hbars
      have hinside : outer ≠ [] := by
        rintro rfl
        cases hdepth
      exact ih h hrest (hbased.next hinside)
    | _ => exact ih h hbars (hbased.push _)

theorem stop_of_mem_ways_sequence {mode : Mode} {text : List Char} {es : List Regex} {i : Nat}
    {way : Captured × Nat} (h : way ∈ ways mode text (sequence (es ++ [textEnd])) i) :
    way.2 = text.length := by
  induction es generalizing i way with
  | nil =>
    have hend : way ∈ if i = text.length then [(([] : Captured), i)] else [] := h
    split at hend
    · rename_i hi
      rw [List.mem_singleton.1 hend]
      exact hi
    · cases hend
  | cons e es ih =>
    rw [List.cons_append, ways_sequence_cons] at h
    obtain ⟨first, -, h⟩ := List.mem_flatMap.1 h
    obtain ⟨second, hsecond, rfl⟩ := List.mem_map.1 h
    exact @ih first.2 second hsecond

/-- A sequence from the mark of the start to the mark of the end matches the whole text. -/
theorem whole_of_search?_sequence {middle : List Regex} {mode : Mode} {text : List Char}
    {found : Found}
    (h : search? (sequence (textStart :: (middle ++ [textEnd]))) mode text = some found) :
    found.whole = ⟨0, text.length⟩ := by
  have hway := (mem_ways_of_search? h).2
  have hstop := @stop_of_mem_ways_sequence _ _ (textStart :: middle) _ _ hway
  rw [ways_sequence_cons] at hway
  obtain ⟨first, hfirst, -⟩ := List.mem_flatMap.1 hway
  have hstart : found.whole.start = 0 := by
    have hmark : first ∈
        if found.whole.start = 0 then [(([] : Captured), found.whole.start)] else [] := hfirst
    split at hmark
    · rename_i hzero
      exact hzero
    · cases hmark
  rw [List.length_map] at hstop
  cases hspan : found.whole with
  | mk start stop =>
    rw [hspan] at hstart hstop
    rw [show start = 0 from hstart, show stop = text.length from hstop]

end Regex

/-! ## Patterns for whole texts -/

namespace Pattern

/-- **What a token's expression matches is the whole text**, if every bar of the token stands inside
a group. -/
theorem whole_of_captures? [Engine] {token : String} {flags : Option Flags} {e : Expression}
    {f : Flags} (h : ofText token flags = .ok (regex e f))
    (hbars : Glob.barsInside 1 (Glob.lexemes token.toList) = true) {subject : Subject}
    {s : String} (hsubject : subject.text? = some s)
    (hmatch : ((regex e f).captures? subject).isSome) :
    ∃ found, e.search? s.toList = some found ∧ found.whole = ⟨0, s.toList.length⟩ := by
  obtain ⟨r, hlexemes, rfl, -⟩ := regex_of_ofText h
  have hread := assemble_of_ofLexemes hlexemes
  have hinside : Glob.barsInside 1 (Glob.lexemes token.toList ++ [.groupEnd]) = true := by
    rw [Glob.barsInside_append_groupEnd, hbars]
  have hrun : assemble (Glob.lexemes token.toList ++ [.groupEnd] ++ [.textEnd])
      (0 + Lexeme.textStart.spell.length + Lexeme.plainStart.spell.length) {}
      [⟨false, 0 + Lexeme.textStart.spell.length, ⟨[], [textStart]⟩⟩] = .ok r := by
    rw [List.append_assoc]
    exact hread
  have hbased : Based {} [⟨false, 0 + Lexeme.textStart.spell.length, ⟨[], [textStart]⟩⟩] :=
    ⟨rfl, [], rfl⟩
  obtain ⟨middle, rfl⟩ := exists_sequence_of_assemble hrun hinside hbased
  rw [captures?_regex (ne_pattern_of_text? hsubject), hsubject, Option.bind_some, Option.isSome_map,
    Expression.captures?, Option.isSome_map] at hmatch
  obtain ⟨found, hfound⟩ := Option.isSome_iff_exists.1 hmatch
  exact ⟨found, hfound, whole_of_search?_sequence hfound⟩

/-- Brackets that do not pair up leave a token without bars a pattern for whole texts. -/
theorem whole_of_captures?_unpaired :
    ∃ e, ofText "a)(b" none = .ok (regex e .empty) ∧
      Glob.barsInside 1 (Glob.lexemes "a)(b".toList) = true ∧
      (Subject.key (.name "ab")).text? = some "ab" ∧
      ((regex e .empty).captures? (.key (.name "ab"))).isSome ∧
      ∃ found, e.search? "ab".toList = some found ∧ found.whole = ⟨0, "ab".toList.length⟩ := by
  let r : Regex := .cat .textStart (.cat (.plainGroup (.char 'a'))
    (.cat (.group (.char 'b')) .textEnd))
  have hexpression : IsExpression "a)(b" none :=
    ⟨by decide +kernel, by decide +kernel, by decide +kernel⟩
  have hread : Regex.ofLexemes (Glob.anchored (Glob.lexemes "a)(b".toList)) = .ok r := by
    decide +kernel
  have hpattern : ofText "a)(b" none = .ok (regex (r.compiled {}) .empty) :=
    (CompilesAs.regex hexpression hread (by decide +kernel)).ofText_eq
  have hbars : Glob.barsInside 1 (Glob.lexemes "a)(b".toList) = true := by decide +kernel
  have hmatch : ((regex (r.compiled {}) .empty).captures? (.key (.name "ab"))).isSome := by
    decide +kernel
  exact ⟨_, hpattern, hbars, rfl, hmatch, whole_of_captures? hpattern hbars rfl hmatch⟩

/-- A bar outside all groups leaves the first alternative without the mark of the end, and a text
is accepted for its first character. -/
theorem captures?_bar_outside :
    ∃ e, ofText "a)|(b" none = .ok (regex e .empty) ∧
      (regex e .empty).captures? (.leaf (.string "ax")) = some [""] ∧
      ∃ found, e.search? "ax".toList = some found ∧ found.whole = ⟨0, 1⟩ := by
  let r : Regex := .alt (.cat .textStart (.plainGroup (.char 'a')))
    (.cat (.group (.char 'b')) .textEnd)
  have hexpression : IsExpression "a)|(b" none :=
    ⟨by decide +kernel, by decide +kernel, by decide +kernel⟩
  have hread : Regex.ofLexemes (Glob.anchored (Glob.lexemes "a)|(b".toList)) = .ok r := by
    decide +kernel
  have hpattern : ofText "a)|(b" none = .ok (regex (r.compiled {}) .empty) :=
    (CompilesAs.regex hexpression hread (by decide +kernel)).ofText_eq
  exact ⟨_, hpattern, by decide +kernel, ⟨⟨0, 1⟩, [none]⟩, by decide +kernel, rfl⟩

end Pattern

end PathQuery
