import Mathlib.Tactic.IntervalCases
import PathQuery.Proofs.Regex.Nesting

/-!
# Expressions are read back from their spelling

The structure of an expression says nothing about its text. Three facts tie the two
together: an expression is spelled as the lexemes that it is put together from
(`spell_of_assemble`), lexemes are read back from their spelling (`read?_spellAll`), and a
spelling has no layout that a reader could drop (`dropLayout_spellAll`). So every reader
gets the expression back (`ofSource?_source`).
-/

namespace PathQuery.Regex

open Text

/-! ## The length of a spelling -/

theorem Lexeme.length_spell_pos (lexeme : Lexeme) : 0 < lexeme.spell.length := by
  cases lexeme with
  | char c =>
    rw [spell, spellChar]
    split
    · exact Nat.succ_pos _
    · split <;> exact Nat.succ_pos _
  | _ => exact Nat.succ_pos _

theorem length_le_length_spellAll (lexemes : List Lexeme) :
    lexemes.length ≤ (spellAll lexemes).length := by
  induction lexemes with
  | nil => exact Nat.le_refl 0
  | cons lexeme lexemes ih =>
    rw [spellAll, List.flatMap_cons, List.length_append, List.length_cons, Nat.add_comm]
    exact Nat.add_le_add lexeme.length_spell_pos ih

/-! ## The spelling of what lexemes are put together to -/

theorem spell_sequence (es : List Regex) : (sequence es).spell = es.flatMap spell := by
  match es with
  | [] => rfl
  | [e] => exact (List.append_nil _).symm
  | e :: d :: es =>
    rw [List.flatMap_cons, ← spell_sequence (d :: es)]
    rfl

theorem spell_alternation (es : List Regex) (last : Regex) :
    (alternation (es ++ [last])).spell =
      (es.flatMap fun e => e.spell ++ Lexeme.bar.spell) ++ last.spell := by
  match es with
  | [] => rfl
  | [e] => 
    rw [List.flatMap_singleton]
    rfl
  | e :: d :: es =>
    rw [List.flatMap_cons, List.append_assoc, ← spell_alternation (d :: es) last]
    rfl

/-- The spelling of what a level holds. -/
def Level.spell (level : Level) : List Char :=
  (level.alternatives.reverse.flatMap fun e => e.spell ++ Lexeme.bar.spell) ++
    level.items.reverse.flatMap Regex.spell

namespace Level

variable (level : Level)

theorem spell_push (e : Regex) : (level.push e).spell = level.spell ++ e.spell := by
  unfold push spell
  rw [List.reverse_cons, List.flatMap_append, List.flatMap_singleton, List.append_assoc]

theorem spell_next : level.next.spell = level.spell ++ Lexeme.bar.spell := by
  unfold next spell
  rw [List.reverse_cons, List.flatMap_append, List.flatMap_singleton, spell_sequence,
    List.reverse_nil, List.flatMap_nil, List.append_nil, List.append_assoc]

theorem spell_finish : level.finish.spell = level.spell := by
  unfold finish next spell
  rw [List.reverse_cons, spell_alternation, spell_sequence]

end Level

def OpenGroup.bracket (opened : OpenGroup) : Lexeme :=
  if opened.captures then .groupStart else .plainStart

theorem OpenGroup.spell_close (opened : OpenGroup) (body : Regex) :
    (opened.close body).spell =
      opened.outer.spell ++ opened.bracket.spell ++ body.spell ++ Lexeme.groupEnd.spell := by
  unfold close bracket
  rw [Level.spell_push]
  split <;> simp only [spell, List.append_assoc]

/-- The spelling of what stands around a level. -/
def spellOuter (outer : List OpenGroup) : List Char :=
  outer.reverse.flatMap fun opened => opened.outer.spell ++ opened.bracket.spell

theorem spellOuter_cons (opened : OpenGroup) (outer : List OpenGroup) :
    spellOuter (opened :: outer) =
      spellOuter outer ++ (opened.outer.spell ++ opened.bracket.spell) := by
  unfold spellOuter
  rw [List.reverse_cons, List.flatMap_append, List.flatMap_singleton]

/-- Putting lexemes together keeps what is spelled. -/
theorem spell_of_assemble {lexemes : List Lexeme} {position : Nat} {level : Level}
    {outer : List OpenGroup} {e : Regex} (h : assemble lexemes position level outer = .ok e) :
    e.spell = spellOuter outer ++ level.spell ++ spellAll lexemes := by
  induction lexemes generalizing position level outer with
  | nil =>
    cases outer with
    | nil =>
      cases h
      rw [Level.spell_finish]
      exact (List.append_nil _).symm
    | cons opened outer => cases h
  | cons lexeme lexemes ih =>
    have hopen : ∀ opened : OpenGroup, spellOuter (opened :: outer) ++ Level.spell {} =
        spellOuter outer ++ opened.outer.spell ++ opened.bracket.spell := by
      intro opened
      rw [spellOuter_cons, ← List.append_assoc]
      exact List.append_nil _
    rw [spellAll, List.flatMap_cons, ← List.append_assoc]
    cases lexeme with
    | groupStart => rw [ih h, hopen]; rfl
    | plainStart => rw [ih h, hopen]; rfl
    | groupEnd =>
      cases outer with
      | nil => cases h
      | cons opened outer =>
        rw [ih h, OpenGroup.spell_close, Level.spell_finish, spellOuter_cons]
        simp only [List.append_assoc, spellAll]
    | bar =>
      rw [ih h, Level.spell_next, ← List.append_assoc]
      rfl
    | _ =>
      rw [ih h, Level.spell_push, ← List.append_assoc]
      rfl

/-! ## Reading lexemes back -/

namespace Lexeme

theorem readFrom?_digitChar {d : Nat} (h : d < 16) (n : Nat) (rest : List Char) :
    readFrom? (some n) (d.digitChar :: rest) = readFrom? (some (16 * n + d)) rest := by
  interval_cases d <;> rfl

theorem readFrom?_toDigits (n : Nat) (rest : List Char) :
    readFrom? (some 0) (Nat.toDigits 16 n ++ rest) = readFrom? (some n) rest := by
  induction n using Nat.strong_induction_on generalizing rest with
  | h n ih =>
    rw [Nat.toDigits_eq_if (by decide)]
    split
    · rename_i hn
      rw [List.singleton_append, readFrom?_digitChar hn, Nat.mul_zero, Nat.zero_add]
    · rw [List.append_assoc, List.singleton_append, ih (n / 16) (by omega),
        readFrom?_digitChar (Nat.mod_lt n (by decide)), Nat.div_add_mod]

theorem readFrom?_spellChar (c : Char) (rest : List Char) :
    readFrom? none (spellChar c ++ rest) = (readFrom? none rest).map (char c :: ·) := by
  unfold spellChar
  split
  · have hread : readFrom? none (['\\', 'x', '{'] ++ Nat.toDigits 16 c.toNat ++ ['}'] ++ rest) =
        readFrom? (some 0) (Nat.toDigits 16 c.toNat ++ '}' :: rest) := by
      simp only [List.append_assoc]
      rfl
    rw [hread, readFrom?_toDigits, readFrom?, Char.ofNat_toNat]
  · split
    · rename_i hmeta
      have hne : ∀ plain, isMeta plain = false → c = plain → False := by
        rintro plain hplain rfl
        rw [hplain] at hmeta
        cases hmeta
      change readFrom? none ('\\' :: c :: rest) = _
      rw [readFrom?, if_pos hmeta]
      · exact hne 'A' (by decide)
      · exact hne 'z' (by decide)
      · exact fun _ heq _ => hne 'x' (by decide) heq
    · rename_i hmeta
      change readFrom? none (c :: rest) = _
      rw [readFrom?, if_neg hmeta]
      -- All other readings begin with a character that has a meaning.
      all_goals
        intros
        subst_vars
        exact hmeta (by decide)

theorem exists_head_spell (lexeme : Lexeme) :
    ∃ c rest, lexeme.spell = c :: rest ∧ c ≠ '?' := by
  cases lexeme with
  | char c =>
    change ∃ d rest, spellChar c = d :: rest ∧ d ≠ '?'
    unfold spellChar
    split
    · exact ⟨'\\', _, rfl, by decide⟩
    · split
      · exact ⟨'\\', _, rfl, by decide⟩
      · rename_i hmeta
        refine ⟨c, [], rfl, ?_⟩
        rintro rfl
        exact hmeta (by decide)
  | anyRun | anyOne => exact ⟨'.', _, rfl, by decide⟩
  | groupStart | plainStart => exact ⟨'(', _, rfl, by decide⟩
  | groupEnd => exact ⟨')', _, rfl, by decide⟩
  | bar => exact ⟨'|', _, rfl, by decide⟩
  | textStart | textEnd => exact ⟨'\\', _, rfl, by decide⟩

/-- No spelling of lexemes begins with a question mark, so a bracket before it starts a group that
captures. -/
theorem readFrom?_groupStart (lexemes : List Lexeme) :
    readFrom? none ('(' :: spellAll lexemes) =
      (readFrom? none (spellAll lexemes)).map (groupStart :: ·) := by
  cases lexemes with
  | nil => rfl
  | cons lexeme lexemes =>
    obtain ⟨c, rest, hspell, hc⟩ := exists_head_spell lexeme
    rw [spellAll, List.flatMap_cons, hspell, List.cons_append, readFrom?]
    intro _ heq
    exact hc (List.cons.inj heq).1

/-- Lexemes are read back from their spelling. -/
theorem read?_spellAll (lexemes : List Lexeme) : read? (spellAll lexemes) = some lexemes := by
  unfold read?
  induction lexemes with
  | nil => rfl
  | cons lexeme lexemes ih =>
    have hread : readFrom? none (lexeme.spell ++ spellAll lexemes) =
        (readFrom? none (spellAll lexemes)).map (lexeme :: ·) := by
      cases lexeme with
      | char c => exact readFrom?_spellChar c _
      | groupStart => exact readFrom?_groupStart lexemes
      | _ => rfl
    rw [ih] at hread
    exact hread

end Lexeme

/-! ## Layout -/

/-- Drops layout: blanks, and comments from a number sign to the end of the line. What stands
behind a backslash is no layout; `comment` tells that a comment has begun. -/
def dropLayoutFrom : Bool → List Char → List Char
  | _, [] => []
  | true, c :: rest => dropLayoutFrom (c != '\n') rest
  | false, '\\' :: c :: rest => '\\' :: c :: dropLayoutFrom false rest
  | false, c :: rest =>
    if isBlank c then dropLayoutFrom false rest
    else if c = '#' then dropLayoutFrom true rest
    else c :: dropLayoutFrom false rest

def dropLayout (source : List Char) : List Char := dropLayoutFrom false source

theorem dropLayout_cons {c : Char} (hblank : ¬isBlank c = true) (hmeta : ¬Lexeme.isMeta c = true)
    (rest : List Char) : dropLayout (c :: rest) = c :: dropLayout rest := by
  have hsign : c ≠ '#' := by
    rintro rfl
    exact hmeta (by decide)
  unfold dropLayout
  rw [dropLayoutFrom, if_neg hblank, if_neg hsign]
  intro _ _ heq _
  subst heq
  exact hmeta (by decide)

theorem dropLayout_digitChar {d : Nat} (h : d < 16) (rest : List Char) :
    dropLayout (d.digitChar :: rest) = d.digitChar :: dropLayout rest := by
  interval_cases d <;> rfl

theorem dropLayout_toDigits (n : Nat) (rest : List Char) :
    dropLayout (Nat.toDigits 16 n ++ rest) = Nat.toDigits 16 n ++ dropLayout rest := by
  induction n using Nat.strong_induction_on generalizing rest with
  | h n ih =>
    rw [Nat.toDigits_eq_if (by decide)]
    split
    · rename_i hn
      exact dropLayout_digitChar hn rest
    · rw [List.append_assoc, List.singleton_append, ih (n / 16) (by omega),
        dropLayout_digitChar (Nat.mod_lt n (by decide)), List.append_assoc, List.singleton_append]

theorem dropLayout_spellChar (c : Char) (rest : List Char) :
    dropLayout (Lexeme.spellChar c ++ rest) = Lexeme.spellChar c ++ dropLayout rest := by
  unfold Lexeme.spellChar
  split
  · have hstart : ∀ tail, dropLayout (['\\', 'x', '{'] ++ tail) =
        ['\\', 'x', '{'] ++ dropLayout tail := fun _ => rfl
    have hend : dropLayout ('}' :: rest) = '}' :: dropLayout rest := rfl
    rw [List.append_assoc, List.append_assoc, hstart, dropLayout_toDigits, List.singleton_append,
      hend]
    simp only [List.append_assoc, List.singleton_append]
  · split
    · rfl
    · rename_i hblank hmeta
      exact dropLayout_cons hblank hmeta rest

/-- A spelling has no layout. -/
theorem dropLayout_spellAll (lexemes : List Lexeme) :
    dropLayout (spellAll lexemes) = spellAll lexemes := by
  induction lexemes with
  | nil => rfl
  | cons lexeme lexemes ih =>
    have hdrop : dropLayout (lexeme.spell ++ spellAll lexemes) =
        lexeme.spell ++ dropLayout (spellAll lexemes) := by
      cases lexeme with
      | char c => exact dropLayout_spellChar c _
      | _ => rfl
    rw [ih] at hdrop
    exact hdrop

/-! ## Reading expressions back -/

/-- Reads the source of an expression, without its layout if it is `extended`. -/
def ofSource? (extended : Bool) (source : List Char) : Option Regex :=
  (Lexeme.read? (if extended then dropLayout source else source)).bind fun lexemes =>
    (ofLexemes lexemes).toOption

/-- An expression is what its source is read as, whether layout counts or not. -/
theorem ofSource?_source {lexemes : List Lexeme} {e : Regex} (h : ofLexemes lexemes = .ok e)
    (extended : Bool) : ofSource? extended e.source.toList = some e := by
  have hspell : e.spell = spellAll lexemes := spell_of_assemble (assemble_of_ofLexemes h)
  have hlayout : (if extended then dropLayout e.spell else e.spell) = spellAll lexemes := by
    rw [hspell, dropLayout_spellAll, ite_self]
  rw [source, String.toList_ofList, ofSource?, hlayout, Lexeme.read?_spellAll, Option.bind_some, h]
  rfl

end PathQuery.Regex
