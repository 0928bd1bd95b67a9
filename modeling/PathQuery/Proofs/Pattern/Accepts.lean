import PathQuery.Proofs.Pattern.Assembly
import PathQuery.Proofs.Pattern.Captures
import PathQuery.Proofs.Regex.Spelling

/-!
# Patterns accept what their text stands for

Token text whose brackets pair up compiles to a pattern, an expression or a literal text, that
accepts a key or a leaf exactly if the token's symbols stand for its text (`ofText_stands`).
-/

namespace PathQuery

open Regex

/-! ## Text without syntax -/

namespace Glob

theorem eq_of_symbol_eq_plain {c d : Char} (h : symbol c = .plain d) : c = d := by
  unfold symbol at h
  split at h <;> cases h
  rfl

/-- Text whose lexemes are all literal characters stands for what is left of it without its
escapes. -/
theorem lexemes_eq_chars {text : List Char} (h : (lexemes text).all Lexeme.isChar = true) :
    lexemes text = (Path.unescape text).map Lexeme.char := by
  unfold lexemes at h ⊢
  fun_induction Path.unescape text with
  | case1 => rfl
  | case2 => rfl
  | case3 c rest ih =>
    rw [lexemesFrom] at h ⊢
    rw [ih h, List.map_cons]
  | case4 c rest hend hescape ih =>
    rw [lexemesFrom_eq, symbols_cons (ne_backslash hend hescape)] at h ⊢
    cases hsymbol : symbol c with
    | plain d =>
      obtain rfl := eq_of_symbol_eq_plain hsymbol
      rw [hsymbol, lexemesOf, ← lexemesFrom_eq] at h
      rw [lexemesOf, ← lexemesFrom_eq, ih h, List.map_cons]
    | _ =>
      rw [hsymbol] at h
      cases h

end Glob

/-! ## Patterns of nested text -/

namespace Pattern

/-- The expression of a token matches the texts that the token's symbols stand for. -/
theorem isSome_captures?_iff_stands {text : List Char} (h : Glob.Nested (Glob.symbols text))
    {e : Regex} (he : assemble (Glob.anchored (Glob.lexemes text)) 0 {} [] = .ok e)
    (flags : Flags) (s : List Char) :
    (e.captures? flags.mode s).isSome ↔ Glob.Stands flags (Glob.symbols text) s := by
  obtain ⟨body, hbody, hinner, hlanguage⟩ := Glob.assemble_anchored_nested flags h
  rw [he] at hbody
  obtain rfl := Except.ok.inj hbody
  rw [isSome_captures?_whole_iff hinner, hlanguage]

/-- Without flags, text without syntax stands for itself without its escapes. -/
theorem stands_iff_eq_unescape {text : List Char} (h : Glob.Nested (Glob.symbols text))
    (hchars : (Glob.lexemes text).all Lexeme.isChar = true) (s : List Char) :
    Glob.Stands .empty (Glob.symbols text) s ↔ s = Path.unescape text := by
  have hassemble := assemble_anchored_chars (Path.unescape text)
  rw [← Glob.lexemes_eq_chars hchars] at hassemble
  rw [← isSome_captures?_iff_stands h hassemble, captures?_whole_chars]
  have hcanon : Flags.empty.mode.canon = id := rfl
  rw [hcanon, List.map_id, List.map_id]
  split
  · rename_i heq
    exact iff_of_true rfl heq.symm
  · rename_i hne
    exact iff_of_false Bool.false_ne_true fun heq => hne heq.symm

/-- **A pattern accepts the texts that its token stands for.** Token text whose brackets pair up,
which neither nests too deeply nor is too large, is more than wildcards and is no range of numbers,
compiles. The pattern accepts a key or a leaf exactly if one of the alternatives of the token stands
for its text, and no object or array. Its expression is what its source is read as, with or without
layout. -/
theorem ofText_stands [Engine] (token : String) (flags : Option Flags)
    (hnested : Glob.Nested (Glob.symbols token.toList))
    (hlimit : WithinLimit (Glob.anchored (Glob.lexemes token.toList)))
    (hsize : WithinSize (ofText token flags))
    (hwild : ∃ c ∈ token.toList, Glob.isWildcard c = false)
    (hrange : Range.read? (Path.unescape token.toList) = none) :
    ∃ p, ofText token flags = .ok p ∧
      (∀ subject s, subject.text? = some s →
        ((p.captures? subject).isSome ↔
          Glob.Stands (flags.getD .empty) (Glob.symbols token.toList) s.toList)) ∧
      p.captures? .composite = none ∧
      ∀ e f, p = regex e f →
        ∃ r, e = r.compiled f.mode ∧ ofSource? f.extended e.source.toList = some r := by
  have hany : token.toList.all Glob.isWildcard = false := by
    obtain ⟨c, hc, hplain⟩ := hwild
    exact List.all_eq_false.2 ⟨c, hc, Bool.eq_false_iff.1 hplain⟩
  cases hliteral : (Glob.lexemes token.toList).all Lexeme.isChar && flags.isNone with
  | true =>
    obtain ⟨hchars, hflags⟩ := Bool.and_eq_true_iff.1 hliteral
    refine ⟨_, (CompilesAs.literal hany hrange hliteral).ofText_eq, ?_, rfl, nofun⟩
    intro subject s hs
    rw [Option.isNone_iff_eq_none.1 hflags, Option.getD_none, stands_iff_eq_unescape hnested hchars,
      captures?_literal (ne_pattern_of_text? hs), hs, isSome_accepted_iff, ← String.toList_inj,
      String.toList_ofList]
  | false =>
    obtain ⟨body, hbody, -, -⟩ := Glob.assemble_anchored_nested (flags.getD .empty) hnested
    have hread := ofLexemes_eq_ok hbody hlimit
    have hexpression : IsExpression token flags := ⟨hany, hrange, hliteral⟩
    have hfits := hexpression.fits hsize hread
    refine ⟨_, (CompilesAs.regex hexpression hread hfits).ofText_eq, ?_, rfl, ?_⟩
    · intro subject s hs
      rw [captures?_regex (ne_pattern_of_text? hs), hs, Option.bind_some, Option.isSome_map]
      exact isSome_captures?_iff_stands hnested hbody _ _
    · intro e f heq
      cases heq
      exact ⟨body.whole, rfl, ofSource?_source hread _⟩

/-- A group whose second alternative is an escaped star and a character, up to case. -/
theorem ofText_stands_group :
    Glob.Nested (Glob.symbols "a(b|\\*?)".toList) ∧
      WithinLimit (Glob.anchored (Glob.lexemes "a(b|\\*?)".toList)) ∧
      WithinSize (ofText "a(b|\\*?)" (some ⟨true, false, false⟩)) ∧
      (∃ c ∈ "a(b|\\*?)".toList, Glob.isWildcard c = false) ∧
      Range.read? (Path.unescape "a(b|\\*?)".toList) = none ∧
      ∃ p, ofText "a(b|\\*?)" (some ⟨true, false, false⟩) = .ok p ∧
        (p.captures? (.key (.name "A*x"))).isSome ∧ p.captures? .composite = none := by
  have hnested : Glob.Nested (Glob.symbols "a(b|\\*?)".toList) := by decide +kernel
  have hlimit : WithinLimit (Glob.anchored (Glob.lexemes "a(b|\\*?)".toList)) := by
    intro fault h
    have hok : (Regex.ofLexemes (Glob.anchored (Glob.lexemes "a(b|\\*?)".toList))).isOk := by
      decide +kernel
    rw [h] at hok
    cases hok
  have hsize : WithinSize (ofText "a(b|\\*?)" (some ⟨true, false, false⟩)) := by
    apply withinSize_of_isOk
    decide +kernel
  have hwild : ∃ c ∈ "a(b|\\*?)".toList, Glob.isWildcard c = false := ⟨'a', by decide, rfl⟩
  have hrange : Range.read? (Path.unescape "a(b|\\*?)".toList) = none := by decide +kernel
  obtain ⟨p, hp, htexts, hcomposite, -⟩ :=
    ofText_stands "a(b|\\*?)" (some ⟨true, false, false⟩) hnested hlimit hsize hwild hrange
  refine ⟨hnested, hlimit, hsize, hwild, hrange, p, hp, ?_, hcomposite⟩
  have hsymbols : Glob.symbols "a(b|\\*?)".toList =
      .plain 'a' :: .opening :: ([.plain 'b', .bar, .plain '*', .question] ++ [.closing]) := by
    decide +kernel
  have hsubject : "A*x".toList = 'A' :: (['*', 'x'] ++ []) := by decide
  rw [htexts _ "A*x" rfl, hsymbols, hsubject]
  have hcovers : ∀ d ∈ ['x'], Flags.Covers ⟨true, false, false⟩ d := by
    intro d hd
    rw [List.mem_singleton.1 hd]
    decide
  have hquestion : Glob.Leading ⟨true, false, false⟩ [.question] ['x'] :=
    @Glob.Leading.wildcards _ [.question] [] ['x'] [] nofun
      ⟨by decide, nofun, hcovers, .inr (Nat.le_refl 1)⟩ .nil
  have hbody : Glob.Leading ⟨true, false, false⟩ [.plain '*', .question] ['*', 'x'] :=
    .plain (by decide +kernel) hquestion
  refine ⟨_, .inl rfl, .plain (by decide +kernel) ?_⟩
  exact .group (by decide) (.inr ⟨[.plain 'b'], by decide, rfl⟩) hbody .nil

end Pattern

end PathQuery
