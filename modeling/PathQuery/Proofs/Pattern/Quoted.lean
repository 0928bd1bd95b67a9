import PathQuery.Proofs.Path.Quote
import PathQuery.Proofs.Pattern.Captures
import PathQuery.Proofs.Pattern.Numerals
import PathQuery.Proofs.Regex.Literal
import PathQuery.Proofs.Regex.Spelling

/-!
# Patterns of quoted text

Quoted text has no wildcards, its lexemes are literal characters, and it is no range of
numbers that the reader takes for one. It compiles to a pattern that accepts the plain
text and nothing else (`ofText_quote`), with flags or without, unless they make letters
match up to case, or there is no room for its expression.
-/

namespace PathQuery

open PathQuery.Path

/-! ## What quoted text is not -/

theorem Range.backslash_mem_quote {text : List Char} {range : Range}
    (h : read? text = some range) : '\\' ∈ quote isMark text := by
  rcases (read?_eq_some_iff.1 h).dot_or_comma_mem with hdot | hcomma
  · exact Path.backslash_mem_quote hdot (by decide)
  · exact Path.backslash_mem_quote hcomma (by decide)

namespace Glob

theorem isMark_of_isWildcard {c : Char} (h : isWildcard c = true) : isMark c = true := by
  rw [isWildcard, Bool.or_eq_true, beq_iff_eq, beq_iff_eq] at h
  rcases h with rfl | rfl <;> decide

theorem not_all_isWildcard_quote {text : List Char} (h : text ≠ []) :
    (quote isMark text).all isWildcard = false := by
  cases hquote : quote isMark text with
  | nil => exact absurd (quote_eq_nil_iff.1 hquote) h
  | cons c rest =>
    have hc : isWildcard c = false := by
      rw [Bool.eq_false_iff]
      intro hwild
      have hback := eq_backslash_of_quote_eq_cons hquote (isMark_of_isWildcard hwild)
      rw [hback] at hwild
      cases hwild
    rw [List.all_cons, hc, Bool.false_and]

/-- A character without a meaning is its own lexeme. -/
theorem lexemesFrom_cons_of_not_isMark {c : Char} (h : ¬isMark c = true) (covered : Bool)
    (rest : List Char) :
    lexemesFrom covered (c :: rest) = .char c :: lexemesFrom false rest := by
  have hwild : ¬isWildcard c = true := fun hwild => h (isMark_of_isWildcard hwild)
  have hne : ∀ mark, isMark mark = true → c = mark → False := by
    rintro mark hmark rfl
    exact h hmark
  rw [lexemesFrom, if_neg hwild]
  · exact fun heq _ => hne '\\' (by decide) heq
  · exact fun _ _ heq _ => hne '\\' (by decide) heq
  · exact hne '(' (by decide)
  · exact hne ')' (by decide)
  · exact hne '|' (by decide)

theorem lexemes_quote (text : List Char) :
    lexemes (quote isMark text) = text.map Regex.Lexeme.char := by
  have hall : ∀ covered, lexemesFrom covered (quote isMark text) =
      text.map Regex.Lexeme.char := by
    induction text with
    | nil => exact fun _ => rfl
    | cons c text ih =>
      intro covered
      by_cases hc : isMark c = true
      · rw [quote_cons_of_pos hc, lexemesFrom, ih, List.map_cons]
      · rw [quote_cons_of_neg hc, lexemesFrom_cons_of_not_isMark hc, ih, List.map_cons]
  exact hall false

end Glob

/-- Quoted text stands for the expression of its plain text. -/
theorem Regex.ofLexemes_anchored_quote (text : List Char) :
    ofLexemes (Glob.anchored (Glob.lexemes (quote isMark text))) =
      .ok (.whole (.sequence (text.map .char))) := by
  rw [Glob.lexemes_quote, ofLexemes_anchored_chars]

/-! ## The pattern of quoted text -/

namespace Pattern

/-- The pattern accepts the keys and leaves with a text, and nothing else of a document, and
captures nothing. -/
def Spells (p : Pattern) (text : String) : Prop :=
  ∀ subject, (∀ other, subject ≠ .pattern other) →
    p.captures? subject = accepted (subject.text? == some text)

theorem spells_literal (text : String) : (literal text).Spells text := by
  intro subject hsubject
  cases subject with
  | pattern other => exact absurd rfl (hsubject other)
  | _ => rfl

/-- The expression of literal characters spells them, unless letters match up to case. -/
theorem spells_regex (text : String) (flags : Flags) {mode : Regex.Mode}
    (hmode : mode.ignoreCase = false) :
    (regex ((Regex.whole (.sequence (text.toList.map .char))).compiled mode) flags).Spells
      text := by
  have hcanon : mode.canon = id := by
    funext c
    rw [Regex.Mode.canon, hmode]
    rfl
  have htest : ∀ s : String,
      ((Regex.whole (.sequence (text.toList.map .char))).captures? mode s.toList).map
        (·.map String.ofList) = accepted (some s == some text) := by
    intro s
    rw [Regex.captures?_whole_chars, hcanon, List.map_id, List.map_id, accepted]
    by_cases h : s = text
    · rw [if_pos (congrArg String.toList h.symm), if_pos (by rw [h]; exact beq_self_eq_true _)]
      rfl
    · rw [if_neg fun hlist => h (String.toList_inj.1 hlist.symm),
        if_neg fun hbeq => h (Option.some.inj (beq_iff_eq.1 hbeq))]
      rfl
  intro subject hsubject
  rw [captures?_regex hsubject]
  cases subject.text? with
  | none => rfl
  | some s => rw [Option.bind_some, Regex.captures?_compiled, htest]

/-- The error of a quoted text whose expression the engine has no room for, which takes flags. -/
structure Oversized [Regex.Engine] (text : String) (flags : Option Flags) (error : CompileError) :
    Prop where
  token : error.token = String.ofList (quote isMark text.toList)
  spelling : error.spelling = sourceOf error.token
  refusal : error.refusal = .tooLarge Regex.Engine.sizeLimit
  room : ∃ f, flags = some f ∧ ¬Regex.Engine.Fits error.spelling f

theorem Oversized.flags_ne_none [Regex.Engine] {text : String} {flags : Option Flags}
    {error : CompileError} (h : Oversized text flags error) : flags ≠ none := by
  obtain ⟨f, rfl, -⟩ := h.room
  exact nofun

/-- Flags make text that is no range of numbers an expression. -/
theorem isExpression_quote {text : String} (h : text ≠ "")
    (hrange : Range.read? text.toList = none) (f : Flags) :
    IsExpression (String.ofList (quote isMark text.toList)) (some f) where
  wild := by
    rw [String.toList_ofList]
    exact Glob.not_all_isWildcard_quote (toList_ne_nil h)
  range := by
    rw [String.toList_ofList, unescape_quote (by decide)]
    exact hrange
  literal := Bool.and_false _

/-- There is no room for an expression that does not fit. -/
theorem ofText_quote_of_not_fits [Regex.Engine] {text : String} (h : text ≠ "")
    (hrange : Range.read? text.toList = none) {f : Flags}
    (hfits : ¬Regex.Engine.Fits (sourceOf (String.ofList (quote isMark text.toList))) f) :
    ∃ error, ofText (String.ofList (quote isMark text.toList)) (some f) = .error error := by
  have hread : Regex.ofLexemes (Glob.anchored (Glob.lexemes
      (String.ofList (quote isMark text.toList)).toList)) =
        .ok (.whole (.sequence (text.toList.map .char))) := by
    rw [String.toList_ofList, Regex.ofLexemes_anchored_quote]
  exact ⟨_, (CompilesAs.tooLarge (isExpression_quote h hrange f) hread hfits).ofText_eq⟩

theorem length_le_length_sourceOf_quote (text : String) :
    text.length ≤ (sourceOf (String.ofList (quote isMark text.toList))).length := by
  have hlexemes : text.length ≤
      (Glob.anchored (Glob.lexemes (quote isMark text.toList))).length := by
    rw [Glob.lexemes_quote, Glob.anchored, List.length_append, List.length_append, List.length_map,
      String.length_toList]
    omega
  rw [sourceOf, String.toList_ofList, String.length_ofList]
  exact Nat.le_trans hlexemes (Regex.length_le_length_spellAll _)

/-- Quoted text compiles to a pattern that spells the plain text, or there is no room for its
expression. -/
theorem ofText_quote [Regex.Engine] {text : String} (h : text ≠ "") (flags : Option Flags) :
    (∃ p, ofText (String.ofList (quote isMark text.toList)) flags = .ok p ∧ p.isParent = false ∧
        ((∀ f ∈ flags, f.ignoreCase = false) → p.Spells text)) ∨
      ∃ error, ofText (String.ofList (quote isMark text.toList)) flags = .error error ∧
        Oversized text flags error := by
  generalize htoken : String.ofList (quote isMark text.toList) = token
  replace htoken : token.toList = quote isMark text.toList := by
    rw [← htoken, String.toList_ofList]
  have hplain : unescape token.toList = text.toList := by
    rw [htoken, unescape_quote (by decide)]
  have hliteral : String.ofList (unescape token.toList) = text := by
    rw [hplain, String.ofList_toList]
  have hread : Regex.ofLexemes (Glob.anchored (Glob.lexemes token.toList)) =
      .ok (.whole (.sequence (text.toList.map .char))) := by
    rw [htoken, Regex.ofLexemes_anchored_quote]
  have hcompiles := compilesAs_ofText token flags
  generalize ofText token flags = result at hcompiles ⊢
  cases hcompiles with
  | any hwild =>
    rw [htoken, Glob.not_all_isWildcard_quote (toList_ne_nil h)] at hwild
    cases hwild
  | range _ hrange hback =>
    rw [hplain] at hrange
    rw [htoken, List.contains_iff_mem.2 (Range.backslash_mem_quote hrange)] at hback
    cases hback
  | escaped =>
    rw [hliteral]
    exact .inl ⟨_, rfl, rfl, fun _ => spells_literal text⟩
  | literal =>
    rw [hliteral]
    exact .inl ⟨_, rfl, rfl, fun _ => spells_literal text⟩
  | regex _ he _ =>
    obtain rfl := Except.ok.inj (he.symm.trans hread)
    refine .inl ⟨_, rfl, rfl, fun hflags => spells_regex text _ ?_⟩
    cases flags with
    | none => rfl
    | some f => exact hflags f rfl
  | tooLarge hexpression _ hfits =>
    cases flags with
    | none =>
      have hchars : (Glob.lexemes token.toList).all Regex.Lexeme.isChar = true := by
        rw [htoken, Glob.lexemes_quote, List.all_map]
        exact List.all_eq_true.2 fun _ _ => rfl
      have hfalse := hexpression.literal
      rw [hchars] at hfalse
      cases hfalse
    | some f =>
      have hquoted : token = String.ofList (quote isMark text.toList) := by
        rw [← htoken, String.ofList_toList]
      exact .inr ⟨_, rfl, hquoted, rfl, rfl, f, rfl, hfits⟩
  | malformed _ he => cases he.symm.trans hread

end Pattern

end PathQuery
