import PathQuery.Proofs.Path.Join
import PathQuery.Proofs.Pattern.Greedy
import PathQuery.Proofs.Pattern.Quoted
import PathQuery.Proofs.Regex.Alternation

/-!
# Two tokens with a bar between them

Token text whose brackets pair up is read as a list of alternatives (`Nested.readsAsAlternatives`),
whatever stands before and behind it. So a bar between two such texts gives the alternatives of the
first and then those of the second (`ReadsAsAlternatives.bar`). The first match of their expression
is that of the first text, or else that of the second, and the groups of the other one took no part
(`captures?_whole_alt`). `captures?_bar` says so of the patterns.
-/

namespace PathQuery

open Regex

/-! ## Text that is no range -/

namespace Range

/-- A range has no bar. -/
theorem read?_eq_none_of_bar {text : List Char} (h : '|' ∈ text) : read? text = none := by
  rw [Option.eq_none_iff_forall_ne_some]
  intro range hrange
  exact (read?_eq_some_iff.1 hrange).not_mem rfl (by decide) h

end Range

/-! ## Reading two texts -/

theorem Path.unescape_append {text : List Char} (h : Units text) (rest : List Char) :
    unescape (text ++ rest) = unescape text ++ unescape rest := by
  induction h with
  | nil => rfl
  | plain hne _ ih =>
    rw [List.cons_append, unescape_cons_of_ne hne, unescape_cons_of_ne hne, ih, List.cons_append]
  | escape c _ ih => exact congrArg (c :: ·) ih

namespace Glob

theorem symbols_append {text : List Char} (h : Path.Units text) (rest : List Char) :
    symbols (text ++ rest) = symbols text ++ symbols rest := by
  induction h with
  | nil => rfl
  | plain hne _ ih =>
    rw [List.cons_append, symbols_cons hne, symbols_cons hne, ih, List.cons_append]
  | escape c _ ih => exact congrArg (Symbol.plain c :: ·) ih

/-- A symbol that is no wildcard ends a run of wildcards before it. -/
theorem lexemesOf_append_cons {m : Symbol} (hm : m.isWildcard = false) (covered : Bool)
    (t rest : List Symbol) :
    lexemesOf covered (t ++ m :: rest) = lexemesOf covered t ++ lexemesOf false (m :: rest) := by
  induction t generalizing covered with
  | nil =>
    cases covered with
    | false => rfl
    | true => exact lexemesOf_true fun _ h => Option.some.inj h ▸ hm
  | cons first t ih =>
    cases first with
    | star => cases covered <;> simp [lexemesOf, ih]
    | question => cases covered <;> simp [lexemesOf, ih]
    | _ => simp [lexemesOf, ih]

/-- Lexemes that, read behind some items, finish some alternatives of the level they stand on and
leave items of the next one, both with the last first. -/
def Continues (lexemes : List Lexeme) (items done left : List Regex) : Prop :=
  ∀ rest position alternatives outer, ∃ after,
    assemble (lexemes ++ rest) position ⟨alternatives, items⟩ outer =
      assemble rest after ⟨done ++ alternatives, left⟩ outer

theorem Nested.exists_continues {t : List Symbol} (h : Nested t) (covered : Bool)
    (items : List Regex) : ∃ done left, Continues (lexemesOf covered t) items done left := by
  induction h generalizing covered items with
  | nil => exact ⟨[], items, fun _ position _ _ => ⟨position, rfl⟩⟩
  | @cons m t hopening hclosing _ ih =>
    cases m with
    | opening => exact absurd rfl hopening
    | closing => exact absurd rfl hclosing
    | plain c =>
      obtain ⟨done, left, hcontinues⟩ := ih false (.char c :: items)
      exact ⟨done, left, fun rest position => hcontinues rest _⟩
    | bar =>
      obtain ⟨done, left, hcontinues⟩ := ih false []
      refine ⟨done ++ [sequence items.reverse], left, fun rest position alternatives outer => ?_⟩
      rw [List.append_assoc]
      exact hcontinues rest _ (sequence items.reverse :: alternatives) outer
    | star =>
      cases covered with
      | true => exact ih true items
      | false =>
        obtain ⟨done, left, hcontinues⟩ := ih true (.group anyRun :: items)
        exact ⟨done, left, fun rest position => hcontinues rest _⟩
    | question =>
      cases covered with
      | true => exact ih true items
      | false =>
        obtain ⟨done, left, hcontinues⟩ := ih false (.group anyOne :: items)
        exact ⟨done, left, fun rest position => hcontinues rest _⟩
  | @group body t _ _ ihbody iht =>
    obtain ⟨inside, last, hbody⟩ := ihbody false []
    obtain ⟨done, left, hcontinues⟩ :=
      iht false (.group (Level.mk (inside ++ []) last).finish :: items)
    refine ⟨done, left, fun rest position alternatives outer => ?_⟩
    -- the body stands on a level of its own, which the closing bracket finishes
    obtain ⟨closing, hclosing⟩ := hbody (.groupEnd :: (lexemesOf false t ++ rest))
      (position + Lexeme.groupStart.spell.length) []
      (⟨true, position, ⟨alternatives, items⟩⟩ :: outer)
    obtain ⟨after, hafter⟩ :=
      hcontinues rest (closing + Lexeme.groupEnd.spell.length) alternatives outer
    refine ⟨after, ?_⟩
    rw [lexemesOf, lexemesOf_append_cons rfl, lexemesOf, List.cons_append, List.append_assoc]
    exact hclosing.trans hafter

/-- Lexemes that are read as some alternatives, with which a level begins. -/
def ReadsAsAlternatives (lexemes : List Lexeme) (es : List Regex) : Prop :=
  ∃ done left, Continues lexemes [] done left ∧ es = done.reverse ++ [sequence left.reverse]

theorem ReadsAsAlternatives.ne_nil {lexemes : List Lexeme} {es : List Regex}
    (h : ReadsAsAlternatives lexemes es) : es ≠ [] := by
  obtain ⟨done, left, -, rfl⟩ := h
  exact List.append_ne_nil_of_right_ne_nil _ (List.cons_ne_nil _ _)

theorem Nested.readsAsAlternatives {text : List Char} (h : Nested (symbols text)) :
    ∃ es, ReadsAsAlternatives (lexemes text) es := by
  obtain ⟨done, left, hcontinues⟩ := h.exists_continues false []
  rw [← lexemesFrom_eq] at hcontinues
  exact ⟨_, done, left, hcontinues, rfl⟩

/-- A bar puts the alternatives of what stands before and behind it one after the other. -/
theorem ReadsAsAlternatives.bar {before behind : List Lexeme} {as bs : List Regex}
    (ha : ReadsAsAlternatives before as) (hb : ReadsAsAlternatives behind bs) :
    ReadsAsAlternatives (before ++ .bar :: behind) (as ++ bs) := by
  obtain ⟨done, left, hbefore, rfl⟩ := ha
  obtain ⟨done', left', hbehind, rfl⟩ := hb
  refine ⟨done' ++ sequence left.reverse :: done, left', ?_, ?_⟩
  · intro rest position alternatives outer
    obtain ⟨bar, hbar⟩ := hbefore (.bar :: (behind ++ rest)) position alternatives outer
    obtain ⟨after, hafter⟩ := hbehind rest (bar + Lexeme.bar.spell.length)
      (sequence left.reverse :: (done ++ alternatives)) outer
    refine ⟨after, ?_⟩
    rw [List.append_assoc, List.cons_append, List.append_assoc, List.cons_append]
    exact hbar.trans hafter
  · rw [List.reverse_append, List.reverse_cons, ← List.append_assoc]

/-- Alternatives between the marks of both ends are an expression for whole texts. -/
theorem ReadsAsAlternatives.assemble_anchored {lexemes : List Lexeme} {es : List Regex}
    (h : ReadsAsAlternatives lexemes es) :
    assemble (anchored lexemes) 0 {} [] = .ok (whole (alternation es)) := by
  obtain ⟨done, left, hcontinues, rfl⟩ := h
  obtain ⟨after, hafter⟩ := hcontinues [.groupEnd, .textEnd]
    (0 + Lexeme.textStart.spell.length + Lexeme.plainStart.spell.length) []
    [⟨false, 0 + Lexeme.textStart.spell.length, ⟨[], [textStart]⟩⟩]
  have hbody : (Level.mk (done ++ []) left).finish =
      alternation (done.reverse ++ [sequence left.reverse]) := by
    rw [List.append_nil, Level.finish, Level.next, List.reverse_cons]
  have hstart : assemble (anchored lexemes) 0 {} [] =
      assemble (lexemes ++ [.groupEnd, .textEnd])
        (0 + Lexeme.textStart.spell.length + Lexeme.plainStart.spell.length) {}
        [⟨false, 0 + Lexeme.textStart.spell.length, ⟨[], [textStart]⟩⟩] := rfl
  rw [hstart, ← hbody]
  exact hafter

/-- The lexemes of two texts with a bar between them. -/
theorem lexemes_bar {a : List Char} (h : Path.endsOpen a = false) (b : List Char) :
    lexemes (a ++ '|' :: b) = lexemes a ++ .bar :: lexemes b := by
  unfold lexemes
  rw [lexemesFrom_eq, lexemesFrom_eq, lexemesFrom_eq, symbols_append (Path.units_of_endsOpen h),
    symbols_cons (by decide)]
  exact lexemesOf_append_cons rfl false _ _

end Glob

/-! ## Matching one of two expressions -/

namespace Regex

variable (a b : Regex) (mode : Mode) (text : List Char)

theorem texts_append (first second : Captured) :
    texts text (first ++ second) = texts text first ++ texts text second :=
  List.map_append

theorem texts_unused : texts text (unused a) = List.replicate a.groups [] :=
  List.map_replicate

/-- The first match of one of two expressions is that of the first, or else that of the second. -/
theorem captures?_whole_alt :
    (whole (alt a b)).captures? mode text =
      (((whole a).captures? mode text).map (· ++ List.replicate b.groups [])).or
        (((whole b).captures? mode text).map (List.replicate a.groups [] ++ ·)) := by
  rw [captures?_whole, captures?_whole, captures?_whole, ways, List.find?_append, List.find?_map,
    List.find?_map, Option.map_or, Option.map_map, Option.map_map, Option.map_map, Option.map_map]
  simp only [Function.comp_def, texts_append, texts_unused]

theorem captures?_whole_alternation_append {as bs : List Regex} (has : as ≠ []) (hbs : bs ≠ []) :
    (whole (alternation (as ++ bs))).captures? mode text =
      (whole (alt (alternation as) (alternation bs))).captures? mode text := by
  rw [captures?_whole, captures?_whole, ways_alternation_append has hbs]

end Regex

/-! ## Patterns of two tokens -/

namespace Pattern

section Tokens

variable {token : String} {es : List Regex} {flags : Flags} {subject : Subject} {s : String}

/-- Token text that reads as some alternatives compiles, under flags, to their expression. -/
theorem ofText_alternatives [Engine]
    (hread : Glob.ReadsAsAlternatives (Glob.lexemes token.toList) es)
    (hheight : height (alternation es) .none + 2 ≤ nestingLimit)
    (hsize : WithinSize (ofText token (some flags)))
    (hwild : ∃ c ∈ token.toList, Glob.isWildcard c = false)
    (hrange : Range.read? (Path.unescape token.toList) = none) :
    ofText token (some flags) =
      .ok (regex ((whole (alternation es)).compiled flags.mode) flags) := by
  obtain ⟨c, hc, hplain⟩ := hwild
  have hexpression : IsExpression token (some flags) :=
    ⟨List.all_eq_false.2 ⟨c, hc, Bool.eq_false_iff.1 hplain⟩, hrange, Bool.and_false _⟩
  rw [← height_whole] at hheight
  have he := (ofLexemes_eq_ok_iff hread.assemble_anchored).2 hheight
  exact (CompilesAs.regex hexpression he (hexpression.fits hsize he)).ofText_eq

theorem captureCount_whole (body : Regex) (mode : Mode) (flags : Flags) :
    (regex ((whole body).compiled mode) flags).captureCount = body.groups := by
  simp [captureCount, compiled, whole, groups]

/-- An expression for one of two lists of alternatives captures what that for the first list does,
or else what that for the second does. -/
theorem captures?_alternatives {as bs : List Regex} (has : as ≠ []) (hbs : bs ≠ [])
    (mode : Mode) (hs : subject.text? = some s) :
    (regex ((whole (alternation (as ++ bs))).compiled mode) flags).captures? subject =
      (((regex ((whole (alternation as)).compiled mode) flags).captures? subject).map
          (· ++ List.replicate (alternation bs).groups "")).or
        (((regex ((whole (alternation bs)).compiled mode) flags).captures? subject).map
          (List.replicate (alternation as).groups "" ++ ·)) := by
  have hempty : String.ofList [] = "" := rfl
  simp only [captures?_regex (ne_pattern_of_text? hs), hs, Option.bind_some, captures?_compiled,
    captures?_whole_alternation_append mode _ has hbs, captures?_whole_alt, Option.map_or,
    Option.map_map, Function.comp_def, List.map_append, List.map_replicate, hempty]

end Tokens

/-- **A bar tries two tokens one after the other.** Of two texts whose brackets pair up, which are
more than wildcards and no ranges of numbers, the first one not ending with a backslash that waits
for its character, the one with a bar between them accepts under the same flags what one of them
does, if it does not nest too deeply and none of the three is too large. If the first accepts a key
or a leaf, its captures come with empty ones for the groups of the second behind them, and if only
the second does, with empty ones for those of the first before. -/
theorem captures?_bar [Engine] (a b : String) (flags : Flags)
    (ha : Glob.Nested (Glob.symbols a.toList)) (hb : Glob.Nested (Glob.symbols b.toList))
    (hopen : Path.endsOpen a.toList = false)
    (hlimit : WithinLimit (Glob.anchored (Glob.lexemes (a ++ "|" ++ b).toList)))
    (hsize : WithinSize (ofText a (some flags))) (hsize' : WithinSize (ofText b (some flags)))
    (hroom : WithinSize (ofText (a ++ "|" ++ b) (some flags)))
    (hwild : ∃ c ∈ a.toList, Glob.isWildcard c = false)
    (hwild' : ∃ c ∈ b.toList, Glob.isWildcard c = false)
    (hrange : Range.read? (Path.unescape a.toList) = none)
    (hrange' : Range.read? (Path.unescape b.toList) = none) :
    ∃ p q r, ofText a (some flags) = .ok p ∧ ofText b (some flags) = .ok q ∧
      ofText (a ++ "|" ++ b) (some flags) = .ok r ∧
      ∀ subject s, subject.text? = some s →
        ((r.captures? subject).isSome ↔
            (p.captures? subject).isSome ∨ (q.captures? subject).isSome) ∧
          (∀ captures, p.captures? subject = some captures →
            r.captures? subject = some (captures ++ List.replicate q.captureCount "")) ∧
          (∀ captures, p.captures? subject = none → q.captures? subject = some captures →
            r.captures? subject = some (List.replicate p.captureCount "" ++ captures)) := by
  obtain ⟨as, has⟩ := ha.readsAsAlternatives
  obtain ⟨bs, hbs⟩ := hb.readsAsAlternatives
  have htext : (a ++ "|" ++ b).toList = a.toList ++ '|' :: b.toList := by
    rw [String.toList_append, String.toList_append, List.append_assoc]
    rfl
  have hboth := has.bar hbs
  rw [← Glob.lexemes_bar hopen, ← htext] at hboth
  -- each of the two nests at most as deep as both together
  have hheight := (ofLexemes_eq_ok_iff hboth.assemble_anchored).1
    (ofLexemes_eq_ok hboth.assemble_anchored hlimit)
  rw [height_whole] at hheight
  have hleft := height_alternation_le_left has.ne_nil hbs.ne_nil .none
  have hright := height_alternation_le_right has.ne_nil hbs.ne_nil
  have hbar : '|' ∈ Path.unescape (a ++ "|" ++ b).toList := by
    rw [htext, Path.unescape_append (Path.units_of_endsOpen hopen)]
    exact List.mem_append_right _ List.mem_cons_self
  have hmore : ∃ c ∈ (a ++ "|" ++ b).toList, Glob.isWildcard c = false :=
    ⟨'|', by rw [htext]; simp, rfl⟩
  refine ⟨_, _, _, ofText_alternatives has (by omega) hsize hwild hrange,
    ofText_alternatives hbs (by omega) hsize' hwild' hrange',
    ofText_alternatives hboth hheight hroom hmore (Range.read?_eq_none_of_bar hbar), ?_⟩
  intro subject s hs
  rw [captures?_alternatives has.ne_nil hbs.ne_nil flags.mode hs, captureCount_whole,
    captureCount_whole]
  refine ⟨?_, fun captures hp => ?_, fun captures hp hq => ?_⟩
  · rw [Option.isSome_or, Option.isSome_map, Option.isSome_map, Bool.or_eq_true]
  · rw [hp]
    rfl
  · rw [hp, hq]
    rfl

/-- Both sides match the text, up to case; the first one is reported, with its optional group. -/
theorem captures?_bar_optional :
    Glob.Nested (Glob.symbols "x(?|y)".toList) ∧ Glob.Nested (Glob.symbols "*z".toList) ∧
      ∃ p q r, ofText "x(?|y)" (some { ignoreCase := true }) = .ok p ∧
        ofText "*z" (some { ignoreCase := true }) = .ok q ∧
        ofText ("x(?|y)" ++ "|" ++ "*z") (some { ignoreCase := true }) = .ok r ∧
        p.captures? (.key (.name "XZ")) = some ["Z", "Z"] ∧
        q.captures? (.key (.name "XZ")) = some ["X"] ∧
        r.captures? (.key (.name "XZ")) = some ["Z", "Z", ""] ∧
        r.captures? (.key (.name "ZZZ")) = some ["", "", "ZZ"] := by
  let e := whole (.cat (.char 'x') (.group (.alt (.group .anyOne) (.char 'y'))))
  let e' := whole (.cat (.group .anyRun) (.char 'z'))
  have hexpression : IsExpression "x(?|y)" (some { ignoreCase := true }) :=
    ⟨by decide +kernel, by decide +kernel, by decide +kernel⟩
  have hexpression' : IsExpression "*z" (some { ignoreCase := true }) :=
    ⟨by decide +kernel, by decide +kernel, by decide +kernel⟩
  have hread : Regex.ofLexemes (Glob.anchored (Glob.lexemes "x(?|y)".toList)) = .ok e := by
    decide +kernel
  have hread' : Regex.ofLexemes (Glob.anchored (Glob.lexemes "*z".toList)) = .ok e' := by
    decide +kernel
  have hpattern : ofText "x(?|y)" (some { ignoreCase := true }) =
      .ok (regex (e.compiled ⟨true, false⟩) { ignoreCase := true }) :=
    (CompilesAs.regex hexpression hread (by decide +kernel)).ofText_eq
  have hpattern' : ofText "*z" (some { ignoreCase := true }) =
      .ok (regex (e'.compiled ⟨true, false⟩) { ignoreCase := true }) :=
    (CompilesAs.regex hexpression' hread' (by decide +kernel)).ofText_eq
  have hlimit : WithinLimit
      (Glob.anchored (Glob.lexemes ("x(?|y)" ++ "|" ++ "*z").toList)) := by
    intro fault h
    have hok : (Regex.ofLexemes
        (Glob.anchored (Glob.lexemes ("x(?|y)" ++ "|" ++ "*z").toList))).isOk := by
      decide +kernel
    rw [h] at hok
    cases hok
  have hroom : WithinSize (ofText ("x(?|y)" ++ "|" ++ "*z") (some { ignoreCase := true })) := by
    apply withinSize_of_isOk
    decide +kernel
  obtain ⟨p, q, r, hp, hq, hr, hbar⟩ := captures?_bar "x(?|y)" "*z" { ignoreCase := true }
    (by decide +kernel) (by decide +kernel) (by decide +kernel) hlimit
    (withinSize_of_isOk (by rw [hpattern]; rfl)) (withinSize_of_isOk (by rw [hpattern']; rfl)) hroom
    ⟨'x', by decide, rfl⟩ ⟨'z', by decide, rfl⟩ (by decide +kernel) (by decide +kernel)
  rw [hpattern] at hp
  rw [hpattern'] at hq
  obtain rfl := Except.ok.inj hp
  obtain rfl := Except.ok.inj hq
  refine ⟨by decide +kernel, by decide +kernel, _, _, r, hpattern, hpattern', hr,
    by decide +kernel, by decide +kernel, ?_, ?_⟩
  · exact (hbar (.key (.name "XZ")) "XZ" rfl).2.1 ["Z", "Z"] (by decide +kernel)
  · exact (hbar (.key (.name "ZZZ")) "ZZZ" rfl).2.2 ["ZZ"] (by decide +kernel) (by decide +kernel)

end Pattern

end PathQuery
