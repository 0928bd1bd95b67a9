import PathQuery.Proofs.Failures
import PathQuery.Regex.Reader

/-!
# How deep expressions nest

`height` counts the levels that an expression adds to those around it. Reading finds a
fault exactly where the levels go beyond the limit (`checkNesting_cases`). What is put together
from lexemes can have no other fault (`ofLexemes_eq_ok`).
-/

namespace PathQuery.Regex

/-- The levels that an expression adds where it goes on with a sequence or an alternation, or with
neither. -/
def height (e : Regex) (spine : Spine) : Nat :=
  (if e.nests spine then 1 else 0) +
    match e with
    | cat a b => max (height a .none) (height b .cat)
    | alt a b => max (height a .none) (height b .alt)
    | group body => height body .none
    | plainGroup body => height body .none
    | _ => 0

theorem ite_succ_le_iff {c : Prop} [Decidable c] {depth n limit : Nat} :
    (if c then depth + 1 else depth) + n ≤ limit ↔ depth + ((if c then 1 else 0) + n) ≤ limit := by
  split <;> omega

/-- Reading goes on behind the expression if it stays within the limit, and else finds a part of it
that nests too deeply. -/
theorem checkNesting_cases (e : Regex) (spine : Spine) (depth position : Nat) :
    (depth + height e spine ≤ nestingLimit ∧
        checkNesting e spine depth position = .ok (position + e.spell.length)) ∨
      (nestingLimit < depth + height e spine ∧
        ∃ start stop, checkNesting e spine depth position =
          .error ⟨.nesting nestingLimit, start, stop⟩) := by
  induction e generalizing spine depth position with
  | cat a b iha ihb =>
    rw [height, ← Nat.not_le, ← ite_succ_le_iff, checkNesting]
    generalize (if (cat a b).nests spine = true then depth + 1 else depth) = level
    by_cases hlevel : nestingLimit < level
    · exact .inr ⟨by omega, _, _, if_pos hlevel⟩
    rw [if_neg hlevel]
    rcases iha .none level position with ⟨hle, ha⟩ | ⟨hlt, start, stop, ha⟩
    · rcases ihb .cat level (position + a.spell.length) with ⟨hle', hb⟩ | ⟨hlt', start, stop, hb⟩
      · left
        rw [ha, spell, List.length_append, ← Nat.add_assoc]
        exact ⟨by omega, hb⟩
      · right
        rw [ha]
        exact ⟨by omega, start, stop, hb⟩
    · right
      rw [ha]
      exact ⟨by omega, start, stop, rfl⟩
  | alt a b iha ihb =>
    rw [height, ← Nat.not_le, ← ite_succ_le_iff, checkNesting]
    generalize (if (alt a b).nests spine = true then depth + 1 else depth) = level
    by_cases hlevel : nestingLimit < level
    · exact .inr ⟨by omega, _, _, if_pos hlevel⟩
    rw [if_neg hlevel]
    rcases iha .none level position with ⟨hle, ha⟩ | ⟨hlt, start, stop, ha⟩
    · rcases ihb .alt level (position + a.spell.length + Lexeme.bar.spell.length) with
        ⟨hle', hb⟩ | ⟨hlt', start, stop, hb⟩
      · left
        rw [ha, spell, List.length_append, List.length_append, ← Nat.add_assoc, ← Nat.add_assoc]
        exact ⟨by omega, hb⟩
      · right
        rw [ha]
        exact ⟨by omega, start, stop, hb⟩
    · right
      rw [ha]
      exact ⟨by omega, start, stop, rfl⟩
  | group body ih =>
    rw [height, ← Nat.not_le, ← ite_succ_le_iff, checkNesting]
    generalize (if (group body).nests spine = true then depth + 1 else depth) = level
    by_cases hlevel : nestingLimit < level
    · exact .inr ⟨by omega, _, _, if_pos hlevel⟩
    rw [if_neg hlevel]
    rcases ih .none level (position + Lexeme.groupStart.spell.length) with
      ⟨hle, hbody⟩ | ⟨hlt, start, stop, hbody⟩
    · left
      rw [hbody, spell, List.length_append, List.length_append, ← Nat.add_assoc, ← Nat.add_assoc]
      exact ⟨hle, rfl⟩
    · right
      rw [hbody]
      exact ⟨by omega, start, stop, rfl⟩
  | plainGroup body ih =>
    rw [height, ← Nat.not_le, ← ite_succ_le_iff, checkNesting]
    generalize (if (plainGroup body).nests spine = true then depth + 1 else depth) = level
    by_cases hlevel : nestingLimit < level
    · exact .inr ⟨by omega, _, _, if_pos hlevel⟩
    rw [if_neg hlevel]
    rcases ih .none level (position + Lexeme.plainStart.spell.length) with
      ⟨hle, hbody⟩ | ⟨hlt, start, stop, hbody⟩
    · left
      rw [hbody, spell, List.length_append, List.length_append, ← Nat.add_assoc, ← Nat.add_assoc]
      exact ⟨hle, rfl⟩
    · right
      rw [hbody]
      exact ⟨by omega, start, stop, rfl⟩
  | empty | textStart | textEnd | anyRun | anyOne | char =>
    unfold height
    rw [← Nat.not_le, ← ite_succ_le_iff]
    unfold checkNesting
    dsimp only
    generalize (if nests _ spine = true then depth + 1 else depth) = level
    by_cases hlevel : nestingLimit < level
    · exact .inr ⟨Nat.not_le.2 hlevel, _, _, if_pos hlevel⟩
    · exact .inl ⟨Nat.le_of_not_lt hlevel, if_neg hlevel⟩

theorem checkNesting_eq_ok {e : Regex} {spine : Spine} {depth : Nat}
    (h : depth + height e spine ≤ nestingLimit) (position : Nat) :
    checkNesting e spine depth position = .ok (position + e.spell.length) := by
  rcases checkNesting_cases e spine depth position with ⟨-, hok⟩ | ⟨hlt, -⟩
  · exact hok
  · omega

/-- Nothing is read without a fault that goes beyond the limit. -/
theorem le_of_checkNesting_eq_ok {e : Regex} {spine : Spine} {depth position after : Nat}
    (h : checkNesting e spine depth position = .ok after) :
    depth + height e spine ≤ nestingLimit := by
  rcases checkNesting_cases e spine depth position with ⟨hle, -⟩ | ⟨-, start, stop, herror⟩
  · exact hle
  · rw [herror] at h
    cases h

/-! ## Faults of nesting -/

theorem cause_of_checkNesting {e : Regex} {spine : Spine} {depth position : Nat} {fault : Fault}
    (h : checkNesting e spine depth position = .error fault) :
    fault.cause = .nesting nestingLimit := by
  rcases checkNesting_cases e spine depth position with ⟨-, hok⟩ | ⟨-, start, stop, herror⟩
  · rw [hok] at h
    cases h
  · rw [herror] at h
    cases h
    rfl

/-- Reading the lexemes does not stop because they nest too deeply. -/
def WithinLimit (lexemes : List Lexeme) : Prop :=
  ∀ fault, ofLexemes lexemes = .error fault → fault.cause ≠ .nesting nestingLimit

theorem ofLexemes_eq_ok {lexemes : List Lexeme} {e : Regex}
    (h : assemble lexemes 0 {} [] = .ok e) (hlimit : WithinLimit lexemes) :
    ofLexemes lexemes = .ok e := by
  cases hcheck : checkNesting e .none 0 0 with
  | ok =>
    rw [ofLexemes, h]
    simp only [bind, Except.bind, hcheck]
  | error fault =>
    have hfault : ofLexemes lexemes = .error fault := by
      rw [ofLexemes, h]
      simp only [bind, Except.bind, hcheck]
    exact absurd (cause_of_checkNesting hcheck) (hlimit fault hfault)

/-- Lexemes that can be put together are read exactly if the expression stays within the limit. -/
theorem ofLexemes_eq_ok_iff {lexemes : List Lexeme} {e : Regex}
    (h : assemble lexemes 0 {} [] = .ok e) :
    ofLexemes lexemes = .ok e ↔ height e .none ≤ nestingLimit := by
  have hread : ofLexemes lexemes = (checkNesting e .none 0 0).map fun _ => e := by
    rw [ofLexemes, h]
    cases hcheck : checkNesting e .none 0 0 <;> simp [bind, Except.bind, hcheck, Except.map]
  rw [hread]
  constructor
  · intro hok
    obtain ⟨after, hafter, -⟩ := exists_of_map_eq_ok hok
    have := le_of_checkNesting_eq_ok hafter
    omega
  · intro hheight
    rw [checkNesting_eq_ok (by omega)]
    rfl

theorem assemble_of_ofLexemes {lexemes : List Lexeme} {e : Regex} (h : ofLexemes lexemes = .ok e) :
    assemble lexemes 0 {} [] = .ok e := by
  cases hread : assemble lexemes 0 {} [] with
  | error fault =>
    rw [ofLexemes, hread] at h
    cases h
  | ok e' =>
    rw [ofLexemes, hread] at h
    simp only [bind, Except.bind] at h
    split at h
    · cases h
    · exact h

end PathQuery.Regex
