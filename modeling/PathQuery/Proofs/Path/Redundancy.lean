import Mathlib.Logic.Relation
import PathQuery.Proofs.Path.Join

/-!
# Texts without meaning in a path

Some texts of a path may as well not be there: empty ones, dots, and behind a `**` another one or a
step to the parent without a value (`Condenses`). Deleting one of them keeps the segments, since
what the texts before it leave behind is only whether a `**` waits (`Condenses.ofTexts_eq`). So
paths that can be condensed to the same texts have the same segments, and slashes or dots more at
the start of a path, between two of its texts or at its end change nothing
(`ofPath_eq_of_condenses`).
-/

namespace PathQuery.Segment

open PathQuery.Path

/-- One text less, without which a path means the same. -/
inductive Condenses : List (List Char) → List (List Char) → Prop
  | empty (before after : List (List Char)) :
      Condenses (before ++ [] :: after) (before ++ after)
  | dot (before after : List (List Char)) :
      Condenses (before ++ ['.'] :: after) (before ++ after)
  | again (before after : List (List Char)) :
      Condenses (before ++ ['*', '*'] :: ['*', '*'] :: after) (before ++ ['*', '*'] :: after)
  | up (before after : List (List Char)) {text : List Char} :
      text = ['.', '.'] ∨ text = ['.', '.', '='] →
      Condenses (before ++ ['*', '*'] :: text :: after) (before ++ ['*', '*'] :: after)

/-- The first texts of a path have some segments and tell whether a `**` waits for the next one. -/
theorem exists_ofTexts_append (pending : Bool) (before : List (List Char)) :
    ∃ (segments : List Segment) (next : Bool),
      ∀ rest, ofTexts pending (before ++ rest) = segments ++ ofTexts next rest := by
  induction before generalizing pending with
  | nil => exact ⟨[], pending, fun _ => rfl⟩
  | cons text before ih =>
    obtain ⟨head, next, hread⟩ := ofTexts_cons pending text
    obtain ⟨segments, last, hreads⟩ := ih next
    refine ⟨head.toList ++ segments, last, fun rest => ?_⟩
    rw [List.cons_append, hread, hreads, List.append_assoc]

theorem Condenses.ofTexts_eq {texts texts' : List (List Char)} (h : Condenses texts texts')
    (pending : Bool) : ofTexts pending texts = ofTexts pending texts' := by
  cases h with
  | empty before after =>
    obtain ⟨segments, next, hread⟩ := exists_ofTexts_append pending before
    rw [hread, hread, ofTexts]
  | dot before after =>
    obtain ⟨segments, next, hread⟩ := exists_ofTexts_append pending before
    rw [hread, hread, ofTexts]
  | again before after =>
    obtain ⟨segments, next, hread⟩ := exists_ofTexts_append pending before
    rw [hread, hread, ofTexts, ofTexts, ofTexts]
  | up before after htext =>
    obtain ⟨segments, next, hread⟩ := exists_ofTexts_append pending before
    rw [hread, hread, ofTexts, ofTexts]
    rcases htext with rfl | rfl <;> rfl

/-- Texts that are condensed further and further keep their segments. -/
theorem ofTexts_eq_of_reflTransGen {texts texts' : List (List Char)}
    (h : Relation.ReflTransGen Condenses texts texts') (pending : Bool) :
    ofTexts pending texts = ofTexts pending texts' := by
  induction h with
  | refl => rfl
  | tail _ hstep ih => rw [ih, hstep.ofTexts_eq]

/-- Paths whose texts come down to the same texts have the same segments. -/
theorem ofPath_eq_of_reflTransGen {p q : List Char} {texts : List (List Char)}
    (hp : Relation.ReflTransGen Condenses (segmentTexts p) texts)
    (hq : Relation.ReflTransGen Condenses (segmentTexts q) texts) : ofPath p = ofPath q := by
  rw [ofPath, ofPath, ofTexts_eq_of_reflTransGen hp, ofTexts_eq_of_reflTransGen hq]

/-! ## Slashes and dots -/

theorem ofPath_slash (path : List Char) : ofPath ('/' :: path) = ofPath path :=
  ofPath_eq_of_reflTransGen (.single (.empty [] (segmentTexts path))) .refl

theorem ofPath_dot_slash (path : List Char) : ofPath ('.' :: '/' :: path) = ofPath path :=
  ofPath_eq_of_reflTransGen (.single (.dot [] (segmentTexts path))) .refl

section Boundary

variable {before : List Char} (h : endsOpen before = false)

include h

theorem ofPath_slash_slash (after : List Char) :
    ofPath (before ++ '/' :: '/' :: after) = ofPath (before ++ '/' :: after) := by
  have hpieces := (units_of_endsOpen h).pieces
  refine ofPath_eq_of_reflTransGen ?_ .refl
  rw [segmentTexts_append_slash hpieces, segmentTexts_append_slash hpieces after]
  exact .single (.empty _ _)

theorem ofPath_slash_dot_slash (after : List Char) :
    ofPath (before ++ '/' :: '.' :: '/' :: after) = ofPath (before ++ '/' :: after) := by
  have hpieces := (units_of_endsOpen h).pieces
  refine ofPath_eq_of_reflTransGen ?_ .refl
  rw [segmentTexts_append_slash hpieces, segmentTexts_append_slash hpieces after]
  exact .single (.dot _ _)

theorem ofPath_append_slash : ofPath (before ++ ['/']) = ofPath before := by
  refine ofPath_eq_of_reflTransGen ?_ .refl
  rcases segmentTexts_slash (units_of_endsOpen h).pieces with heq | heq
  · rw [heq]
  · have hempty := Condenses.empty (segmentTexts before) []
    rw [List.append_nil] at hempty
    rw [heq]
    exact .single hempty

theorem ofPath_append_slash_dot : ofPath (before ++ ['/', '.']) = ofPath before := by
  rw [← ofPath_append_slash h]
  refine ofPath_eq_of_reflTransGen ?_ .refl
  have hdot := Condenses.dot (segmentTexts (before ++ ['/'])) []
  rw [List.append_nil] at hdot
  rw [segmentTexts_append_slash (units_of_endsOpen h).pieces]
  exact .single hdot

end Boundary

/-- **Redundant texts are inert.** Paths whose texts can be condensed to the same texts, in any
number of steps, have the same segments. So has a path with a slash, or a dot and a slash, more at
its start or behind one of its slashes, and one with a slash, or a slash and a dot, more at its
end, unless a backslash takes the meaning from that slash. -/
theorem ofPath_eq_of_condenses :
    (∀ (p q : List Char) (texts : List (List Char)),
        Relation.ReflTransGen Condenses (segmentTexts p) texts →
        Relation.ReflTransGen Condenses (segmentTexts q) texts → ofPath p = ofPath q) ∧
      (∀ path : List Char,
        ofPath ('/' :: path) = ofPath path ∧ ofPath ('.' :: '/' :: path) = ofPath path) ∧
      (∀ before after : List Char, endsOpen before = false →
        ofPath (before ++ '/' :: '/' :: after) = ofPath (before ++ '/' :: after) ∧
          ofPath (before ++ '/' :: '.' :: '/' :: after) = ofPath (before ++ '/' :: after)) ∧
      ∀ path : List Char, endsOpen path = false →
        ofPath (path ++ ['/']) = ofPath path ∧ ofPath (path ++ ['/', '.']) = ofPath path := by
  refine ⟨fun p q texts hp hq => ofPath_eq_of_reflTransGen hp hq, ?_, ?_, ?_⟩
  · exact fun path => ⟨ofPath_slash path, ofPath_dot_slash path⟩
  · exact fun before after h => ⟨ofPath_slash_slash h after, ofPath_slash_dot_slash h after⟩
  · exact fun path h => ⟨ofPath_append_slash h, ofPath_append_slash_dot h⟩

/-- Every kind of redundant text behind a `**` that waits at the end, and a slash behind a pair of
backslashes. -/
theorem ofPath_eq_of_condenses_waiting :
    Relation.ReflTransGen Condenses (segmentTexts "**/./..//**/..=/".toList) [['*', '*']] ∧
      Relation.ReflTransGen Condenses (segmentTexts "./**".toList) [['*', '*']] ∧
      ofPath "**/./..//**/..=/".toList = ofPath "./**".toList ∧
      endsOpen "a\\\\".toList = false ∧
      ofPath ("a\\\\".toList ++ '/' :: '.' :: '/' :: "b".toList) =
        ofPath ("a\\\\".toList ++ '/' :: "b".toList) ∧
      ofPath ("a\\\\".toList ++ ['/', '.']) = ofPath "a\\\\".toList := by
  have hlong : Relation.ReflTransGen Condenses (segmentTexts "**/./..//**/..=/".toList)
      [['*', '*']] :=
    .head (.dot [['*', '*']] [['.', '.'], [], ['*', '*'], ['.', '.', '=']]) <|
    .head (.up [] [[], ['*', '*'], ['.', '.', '=']] (.inl rfl)) <|
    .head (.empty [['*', '*']] [['*', '*'], ['.', '.', '=']]) <|
    .head (.again [] [['.', '.', '=']]) <|
    .single (.up [] [] (.inr rfl))
  have hshort : Relation.ReflTransGen Condenses (segmentTexts "./**".toList) [['*', '*']] :=
    .single (.dot [] [['*', '*']])
  have hclosed : endsOpen "a\\\\".toList = false := rfl
  obtain ⟨hsame, -, hinner, hend⟩ := ofPath_eq_of_condenses
  exact ⟨hlong, hshort, hsame _ _ _ hlong hshort, hclosed, (hinner _ _ hclosed).2,
    (hend _ hclosed).2⟩

end PathQuery.Segment
