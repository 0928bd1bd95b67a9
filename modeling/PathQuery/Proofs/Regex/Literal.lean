import Mathlib.Data.List.Basic
import PathQuery.Pattern.Glob
import PathQuery.Proofs.Regex.Nesting
import PathQuery.Proofs.Regex.Ways

/-!
# Expressions for whole texts

An expression between the marks of both ends matches a text if its body does so in a
way that covers all of it (`search?_whole`). It is read item by item
(`assemble_anchored_flatMap`). Literal characters between the marks are read without a
fault (`ofLexemes_anchored_chars`) and match the texts that are equal to them as the mode
compares characters (`captures?_whole_chars`).
-/

namespace PathQuery.Regex

/-- An expression that matches whole texts only. -/
def whole (body : Regex) : Regex := cat textStart (cat (plainGroup body) textEnd)

/-! ## Reading items -/

/-- Lexemes that are read as one item of the level they stand on. -/
def ReadsAs (lexemes : List Lexeme) (e : Regex) : Prop :=
  ∀ position level outer, ∃ after, ∀ rest,
    assemble (lexemes ++ rest) position level outer = assemble rest after (level.push e) outer

section Items

variable {β : Type} {lexemes : β → List Lexeme} {expression : β → Regex}

theorem assemble_flatMap (h : ∀ x, ReadsAs (lexemes x) (expression x)) (xs : List β)
    (rest : List Lexeme) (position : Nat) (level : Level) (outer : List OpenGroup) :
    ∃ after, assemble (xs.flatMap lexemes ++ rest) position level outer =
      assemble rest after ⟨level.alternatives, (xs.map expression).reverse ++ level.items⟩
        outer := by
  induction xs generalizing position level with
  | nil => exact ⟨position, rfl⟩
  | cons x xs ih =>
    obtain ⟨next, hnext⟩ := h x position level outer
    obtain ⟨after, hafter⟩ := ih next (level.push (expression x))
    refine ⟨after, ?_⟩
    rw [List.flatMap_cons, List.append_assoc, hnext, List.map_cons, List.reverse_cons,
      List.append_assoc]
    exact hafter

/-- Items between the marks of both ends are an expression for whole texts. -/
theorem assemble_anchored_flatMap (h : ∀ x, ReadsAs (lexemes x) (expression x)) (xs : List β) :
    assemble (Glob.anchored (xs.flatMap lexemes)) 0 {} [] =
      .ok (whole (sequence (xs.map expression))) := by
  obtain ⟨after, hafter⟩ := assemble_flatMap h xs [.groupEnd, .textEnd]
    (0 + Lexeme.textStart.spell.length + Lexeme.plainStart.spell.length) {}
    [⟨false, 0 + Lexeme.textStart.spell.length, ⟨[], [textStart]⟩⟩]
  have hbody : (Level.mk [] ((xs.map expression).reverse ++ [])).finish =
      sequence (xs.map expression) := by
    rw [List.append_nil, Level.finish, Level.next, List.reverse_reverse]
    rfl
  have hstart : assemble (Glob.anchored (xs.flatMap lexemes)) 0 {} [] =
      assemble (xs.flatMap lexemes ++ [.groupEnd, .textEnd])
        (0 + Lexeme.textStart.spell.length + Lexeme.plainStart.spell.length) {}
        [⟨false, 0 + Lexeme.textStart.spell.length, ⟨[], [textStart]⟩⟩] := rfl
  rw [hstart, hafter]
  simp only [assemble, hbody]
  rfl

end Items

/-! ## Reading literal characters -/

theorem assemble_anchored_chars (chars : List Char) :
    assemble (Glob.anchored (chars.map Lexeme.char)) 0 {} [] =
      .ok (whole (sequence (chars.map Regex.char))) := by
  have hread : ∀ c, ReadsAs [Lexeme.char c] (Regex.char c) := fun _ _ _ _ => ⟨_, fun _ => rfl⟩
  rw [List.map_eq_flatMap]
  exact assemble_anchored_flatMap hread chars

theorem height_char (c : Char) (spine : Spine) : height (char c) spine = 0 := rfl

theorem height_chars_cat (chars : List Char) :
    height (sequence (chars.map Regex.char)) .cat = 0 := by
  induction chars with
  | nil => rfl
  | cons c chars ih =>
    cases chars with
    | nil => rfl
    | cons d chars =>
      have hnests : (cat (char c) (sequence ((d :: chars).map Regex.char))).nests .cat = false :=
        rfl
      change height (cat (char c) (sequence ((d :: chars).map Regex.char))) .cat = 0
      rw [height, ih, height_char, hnests]
      rfl

/-- Literal characters one after the other nest at most one level deep. -/
theorem height_chars_le (chars : List Char) (spine : Spine) :
    height (sequence (chars.map Regex.char)) spine ≤ 1 := by
  match chars with
  | [] => exact Nat.zero_le 1
  | [c] => exact Nat.zero_le 1
  | c :: d :: chars =>
    change height (cat (char c) (sequence ((d :: chars).map Regex.char))) spine ≤ 1
    rw [height, height_chars_cat, height_char]
    split <;> omega

theorem height_whole (body : Regex) : height (whole body) .none = height body .none + 2 := by
  have hgroup : height (plainGroup body) .none = 1 + height body .none := rfl
  have hrest : height (cat (plainGroup body) textEnd) .cat = height (plainGroup body) .none := by
    rw [height]
    exact (Nat.zero_add _).trans (Nat.max_zero _)
  have hwhole : height (whole body) .none = 1 + max 0 (1 + height body .none) := by
    rw [whole, height, hrest, hgroup]
    rfl
  omega

theorem ofLexemes_anchored_chars (chars : List Char) :
    ofLexemes (Glob.anchored (chars.map Lexeme.char)) =
      .ok (whole (sequence (chars.map Regex.char))) := by
  have hheight : 0 + height (whole (sequence (chars.map Regex.char))) .none ≤ nestingLimit := by
    have hwhole := height_whole (sequence (chars.map Regex.char))
    have hbody := height_chars_le chars .none
    rw [nestingLimit]
    omega
  rw [ofLexemes, assemble_anchored_chars]
  simp only [bind, Except.bind, checkNesting_eq_ok hheight]

/-! ## Matching whole texts -/

theorem ways_whole_zero (mode : Mode) (text : List Char) (body : Regex) :
    ways mode text (whole body) 0 =
      (ways mode text body 0).filter fun way => way.2 == text.length := by
  have hend : ∀ way : Captured × Nat,
      ((ways mode text textEnd way.2).map fun last => (way.1 ++ last.1, last.2)) =
        (Option.guard (fun way => way.2 == text.length) way).toList := by
    intro way
    rw [ways, Option.guard]
    by_cases h : way.2 = text.length
    · rw [if_pos h, if_pos (beq_iff_eq.2 h), List.map_singleton, List.append_nil]
      rfl
    · rw [if_neg h, if_neg (fun hbeq => h (beq_iff_eq.1 hbeq))]
      rfl
  have hbody : ways mode text (cat (plainGroup body) textEnd) 0 =
      (ways mode text body 0).filter fun way => way.2 == text.length := by
    rw [ways, ways]
    simp only [hend]
    rw [← List.filterMap_eq_flatMap_toList, List.filterMap_eq_filter]
  have hstart : ways mode text (whole body) 0 =
      ways mode text (cat (plainGroup body) textEnd) 0 := by
    rw [whole, ways]
    simp [ways]
  rw [hstart, hbody]

theorem ways_whole_succ (mode : Mode) (text : List Char) (body : Regex) (i : Nat) :
    ways mode text (whole body) (i + 1) = [] := by
  rw [whole, ways]
  simp [ways]

/-- An expression between the marks of both ends is found where its body, in the first way that
covers all of the text. -/
theorem search?_whole (body : Regex) (mode : Mode) (text : List Char) :
    search? (whole body) mode text =
      ((ways mode (text.map mode.canon) body 0).find? fun way => way.2 == text.length).map
        fun way => ⟨⟨0, way.2⟩, way.1⟩ := by
  have hlater : ((List.range text.length).map Nat.succ).findSome? (fun start =>
      (ways mode (text.map mode.canon) (whole body) start).head?.map fun way =>
        Found.mk ⟨start, way.2⟩ way.1) = none := by
    rw [List.findSome?_map, List.findSome?_eq_none_iff]
    intro i _
    rw [Function.comp_apply, ways_whole_succ]
    rfl
  rw [search?_eq, List.range_succ_eq_map, List.findSome?_cons, hlater, ways_whole_zero,
    List.length_map, ← List.head?_filter]
  cases (List.filter _ _).head? <;> rfl

/-! ## Matching literal characters -/

theorem ways_sequence_cons (mode : Mode) (text : List Char) (e : Regex) (es : List Regex)
    (i : Nat) :
    ways mode text (sequence (e :: es)) i =
      (ways mode text e i).flatMap fun first =>
        (ways mode text (sequence es) first.2).map fun second =>
          (first.1 ++ second.1, second.2) := by
  cases es with
  | nil => simp [sequence, ways]
  | cons d es => rfl

/-- Literal characters match in one way where they stand, and in none elsewhere. -/
theorem ways_chars (mode : Mode) (text chars : List Char) (i : Nat) :
    ways mode text (sequence (chars.map Regex.char)) i =
      if chars.map mode.canon <+: text.drop i then [([], i + chars.length)] else [] := by
  induction chars generalizing i with
  | nil =>
    rw [List.map_nil, List.map_nil, if_pos List.nil_prefix]
    rfl
  | cons c chars ih =>
    rw [List.map_cons, ways_sequence_cons, ways, List.map_cons, List.length_cons]
    by_cases hi : i < text.length
    · rw [List.drop_eq_getElem_cons hi, List.getElem?_eq_getElem hi, Option.any_some]
      simp only [List.cons_prefix_cons]
      by_cases hc : text[i] = mode.canon c
      · rw [if_pos (beq_iff_eq.2 hc), List.flatMap_singleton, ih]
        by_cases hrest : chars.map mode.canon <+: text.drop (i + 1)
        · rw [if_pos hrest, if_pos ⟨hc.symm, hrest⟩, List.map_singleton, List.append_nil,
            Nat.add_right_comm, Nat.add_assoc]
        · rw [if_neg hrest, if_neg fun h => hrest h.2, List.map_nil]
      · rw [if_neg fun h => hc (beq_iff_eq.1 h), if_neg fun h => hc h.1.symm, List.flatMap_nil]
    · have hdrop : text.drop i = [] := List.drop_eq_nil_of_le (Nat.le_of_not_lt hi)
      have hget : text[i]? = none := List.getElem?_eq_none (Nat.le_of_not_lt hi)
      rw [hget, hdrop]
      simp

/-- Literal characters between the marks of both ends match the text that they spell. -/
theorem captures?_whole_chars (mode : Mode) (chars text : List Char) :
    captures? (whole (sequence (chars.map Regex.char))) mode text =
      if chars.map mode.canon = text.map mode.canon then some [] else none := by
  rw [captures?, search?_whole, ways_chars, List.drop_zero, Nat.zero_add]
  by_cases h : chars.map mode.canon = text.map mode.canon
  · have hlength : chars.length = text.length := by
      rw [← List.length_map mode.canon, h, List.length_map]
    rw [if_pos (h ▸ List.prefix_refl _), if_pos h]
    simp [hlength, texts]
  · rw [if_neg h]
    split
    · rename_i hpre
      have hlength : chars.length ≠ text.length := by
        intro hlength
        apply h
        apply hpre.eq_of_length
        rw [List.length_map, List.length_map, hlength]
      simp [hlength]
    · rfl

end PathQuery.Regex
