import PathQuery.Pattern.Compile

/-!
# What token text compiles to

The text of a token decides what it compiles to (`compilesAs_ofText`): a pattern for everything, a
range, a literal, or what the engine makes of the expression that the text stands for, which is the
expression or a refusal that carries the text.
-/

namespace PathQuery

/-- Nothing that was to be compiled is too large for the engine. -/
def WithinSize {α : Type} (result : Except CompileError α) : Prop :=
  ∀ error, result = .error error → error.refusal.isTooLarge = false

theorem withinSize_of_isOk {α : Type} {result : Except CompileError α} (h : result.isOk = true) :
    WithinSize result := by
  rintro error rfl
  cases h

namespace Pattern

/-- The source of the expression that a token stands for. -/
def sourceOf (token : String) : String :=
  String.ofList (Regex.spellAll (Glob.anchored (Glob.lexemes token.toList)))

/-- Text that is more than wildcards, no range of numbers, and no literal under the flags. -/
structure IsExpression (token : String) (flags : Option Flags) : Prop where
  wild : token.toList.all Glob.isWildcard = false
  range : Range.read? (Path.unescape token.toList) = none
  literal : ((Glob.lexemes token.toList).all Regex.Lexeme.isChar && flags.isNone) = false

/-- What the text of a token compiles to, by what the text is. -/
inductive CompilesAs [Regex.Engine] (token : String) (flags : Option Flags) :
    Except CompileError Pattern → Prop
  | any : token.toList.all Glob.isWildcard = true → CompilesAs token flags (.ok any)
  | range {r : Range} : token.toList.all Glob.isWildcard = false →
      Range.read? (Path.unescape token.toList) = some r → token.toList.contains '\\' = false →
      CompilesAs token flags (.ok (range r))
  /-- A backslash makes a range of numbers literal, whatever the flags. -/
  | escaped {r : Range} : token.toList.all Glob.isWildcard = false →
      Range.read? (Path.unescape token.toList) = some r → token.toList.contains '\\' = true →
      CompilesAs token flags (.ok (literal (String.ofList (Path.unescape token.toList))))
  | literal : token.toList.all Glob.isWildcard = false →
      Range.read? (Path.unescape token.toList) = none →
      ((Glob.lexemes token.toList).all Regex.Lexeme.isChar && flags.isNone) = true →
      CompilesAs token flags (.ok (literal (String.ofList (Path.unescape token.toList))))
  | regex {e : Regex} : IsExpression token flags →
      Regex.ofLexemes (Glob.anchored (Glob.lexemes token.toList)) = .ok e →
      Regex.Engine.Fits (sourceOf token) (flags.getD .empty) →
      CompilesAs token flags
        (.ok (regex (e.compiled (flags.getD .empty).mode) (flags.getD .empty)))
  | tooLarge {e : Regex} : IsExpression token flags →
      Regex.ofLexemes (Glob.anchored (Glob.lexemes token.toList)) = .ok e →
      ¬Regex.Engine.Fits (sourceOf token) (flags.getD .empty) →
      CompilesAs token flags
        (.error ⟨token, sourceOf token, .tooLarge Regex.Engine.sizeLimit⟩)
  | malformed {fault : Regex.Fault} : IsExpression token flags →
      Regex.ofLexemes (Glob.anchored (Glob.lexemes token.toList)) = .error fault →
      CompilesAs token flags (.error ⟨token, sourceOf token, .malformed fault⟩)

variable [Regex.Engine] {token : String} {flags : Option Flags}

theorem IsExpression.ofText_eq (h : IsExpression token flags) :
    ofText token flags =
      ofLexemes token (Glob.anchored (Glob.lexemes token.toList)) (flags.getD .empty) := by
  unfold ofText
  dsimp only
  rw [h.wild, h.range]
  dsimp only
  rw [h.literal]
  rfl

namespace CompilesAs

variable {result : Except CompileError Pattern}

/-- A token compiles to nothing else. -/
theorem ofText_eq (h : CompilesAs token flags result) : ofText token flags = result := by
  cases h with
  | any hwild => exact if_pos hwild
  | range hwild hrange hescape =>
    unfold ofText
    dsimp only
    rw [hwild, hrange]
    dsimp only
    rw [hescape]
    rfl
  | escaped hwild hrange hescape =>
    unfold ofText
    dsimp only
    rw [hwild, hrange]
    dsimp only
    rw [hescape]
    rfl
  | literal hwild hrange hliteral =>
    unfold ofText
    dsimp only
    rw [hwild, hrange]
    dsimp only
    rw [hliteral]
    rfl
  | regex hexpression hread hfits =>
    rw [hexpression.ofText_eq, ofLexemes, hread]
    exact if_pos hfits
  | tooLarge hexpression hread hfits =>
    rw [hexpression.ofText_eq, ofLexemes, hread]
    exact if_neg hfits
  | malformed hexpression hread =>
    rw [hexpression.ofText_eq, ofLexemes, hread]
    rfl

theorem compilesAs_ofText (h : CompilesAs token flags result) :
    CompilesAs token flags (ofText token flags) := by
  rw [h.ofText_eq]
  exact h

end CompilesAs

/-- The text of a token decides what it compiles to. -/
theorem compilesAs_ofText (token : String) (flags : Option Flags) :
    CompilesAs token flags (ofText token flags) := by
  cases hwild : token.toList.all Glob.isWildcard with
  | true => exact (CompilesAs.any hwild).compilesAs_ofText
  | false =>
    cases hrange : Range.read? (Path.unescape token.toList) with
    | some r =>
      cases hescape : token.toList.contains '\\' with
      | true => exact (CompilesAs.escaped hwild hrange hescape).compilesAs_ofText
      | false => exact (CompilesAs.range hwild hrange hescape).compilesAs_ofText
    | none =>
      cases hliteral : (Glob.lexemes token.toList).all Regex.Lexeme.isChar && flags.isNone with
      | true => exact (CompilesAs.literal hwild hrange hliteral).compilesAs_ofText
      | false =>
        have hexpression : IsExpression token flags := ⟨hwild, hrange, hliteral⟩
        cases hread : Regex.ofLexemes (Glob.anchored (Glob.lexemes token.toList)) with
        | error fault => exact (CompilesAs.malformed hexpression hread).compilesAs_ofText
        | ok e =>
          by_cases hfits : Regex.Engine.Fits (sourceOf token) (flags.getD .empty)
          · exact (CompilesAs.regex hexpression hread hfits).compilesAs_ofText
          · exact (CompilesAs.tooLarge hexpression hread hfits).compilesAs_ofText

/-- Text that can be read as an expression compiles to it if there is room for it. -/
theorem IsExpression.ofText_eq_ok_or (h : IsExpression token flags) {e : Regex}
    (hread : Regex.ofLexemes (Glob.anchored (Glob.lexemes token.toList)) = .ok e) :
    ofText token flags =
        .ok (regex (e.compiled (flags.getD .empty).mode) (flags.getD .empty)) ∨
      ∃ error, ofText token flags = .error error ∧ error.refusal.isTooLarge = true := by
  by_cases hfits : Regex.Engine.Fits (sourceOf token) (flags.getD .empty)
  · exact .inl (CompilesAs.regex h hread hfits).ofText_eq
  · exact .inr ⟨_, (CompilesAs.tooLarge h hread hfits).ofText_eq, rfl⟩

theorem IsExpression.fits (h : IsExpression token flags) (hsize : WithinSize (ofText token flags))
    {e : Regex} (hread : Regex.ofLexemes (Glob.anchored (Glob.lexemes token.toList)) = .ok e) :
    Regex.Engine.Fits (sourceOf token) (flags.getD .empty) := by
  apply Decidable.byContradiction
  intro hfits
  exact Bool.noConfusion (hsize _ (CompilesAs.tooLarge h hread hfits).ofText_eq)

/-- An expression that a token compiles to is what its lexemes are read as, under its flags. -/
theorem regex_of_ofText {e : Expression} {f : Flags} (h : ofText token flags = .ok (regex e f)) :
    ∃ r, Regex.ofLexemes (Glob.anchored (Glob.lexemes token.toList)) = .ok r ∧
      e = r.compiled f.mode ∧ f = flags.getD .empty := by
  have hcompiles := compilesAs_ofText token flags
  rw [h] at hcompiles
  cases hcompiles with
  | regex hexpression hread hfits => exact ⟨_, hread, rfl, rfl⟩

end Pattern

end PathQuery
