import PathQuery.Proofs.Regex.Groups
import PathQuery.Proofs.Regex.Literal

/-!
# Alternations of two lists

Alternatives of one list behind those of another match as the two alternations one after the other
(`ways_alternation_append`), with the groups of both (`groups_alternation_append`), and nest at
least as deep as each (`height_alternation_le_left`, `height_alternation_le_right`).
-/

namespace PathQuery.Regex

theorem alternation_cons (e : Regex) {es : List Regex} (h : es ≠ []) :
    alternation (e :: es) = alt e (alternation es) := by
  cases es with
  | nil => exact absurd rfl h
  | cons d es => rfl

theorem unused_alt (a b : Regex) : unused (alt a b) = unused a ++ unused b :=
  List.replicate_append_replicate.symm

variable {as bs : List Regex}

/-! ## Matching -/

theorem groups_alternation_append (has : as ≠ []) (hbs : bs ≠ []) :
    (alternation (as ++ bs)).groups = (alternation as).groups + (alternation bs).groups := by
  induction as with
  | nil => exact absurd rfl has
  | cons e as ih =>
    by_cases hlast : as = []
    · subst hlast
      rw [List.singleton_append, alternation_cons e hbs]
      rfl
    · rw [List.cons_append, alternation_cons e (List.append_ne_nil_of_left_ne_nil hlast bs),
        alternation_cons e hlast, groups, groups, ih hlast, Nat.add_assoc]

/-- Alternatives are tried in their order, so those of the first list before those of the second. -/
theorem ways_alternation_append (has : as ≠ []) (hbs : bs ≠ []) (mode : Mode) (text : List Char)
    (i : Nat) :
    ways mode text (alternation (as ++ bs)) i =
      ways mode text (alt (alternation as) (alternation bs)) i := by
  induction as with
  | nil => exact absurd rfl has
  | cons e as ih =>
    by_cases hlast : as = []
    · subst hlast
      rw [List.singleton_append, alternation_cons e hbs]
      rfl
    · have hunused : unused (alternation (as ++ bs)) =
          unused (alternation as) ++ unused (alternation bs) := by
        rw [← unused_alt, unused, groups_alternation_append hlast hbs]
        rfl
      rw [List.cons_append, alternation_cons e (List.append_ne_nil_of_left_ne_nil hlast bs),
        alternation_cons e hlast, ways, ih hlast, hunused]
      simp only [ways, unused_alt, List.map_append, List.map_map, List.append_assoc,
        Function.comp_def]

/-! ## Nesting -/

/-- What goes on with a sequence or an alternation saves at most a level. -/
theorem height_bounds (e : Regex) (spine : Spine) :
    height e spine ≤ height e .none ∧ height e .none ≤ height e spine + 1 := by
  have hnests : e.nests spine = true → e.nests .none = true := by
    cases e <;> simp [nests]
  rw [height.eq_def e spine, height.eq_def e .none]
  by_cases h : e.nests spine = true
  · rw [if_pos h, if_pos (hnests h)]
    omega
  · rw [if_neg h]
    by_cases hnone : e.nests .none = true
    · rw [if_pos hnone]
      omega
    · rw [if_neg hnone]
      omega

theorem height_alternation_le_left (has : as ≠ []) (hbs : bs ≠ []) (spine : Spine) :
    height (alternation as) spine ≤ height (alternation (as ++ bs)) spine := by
  induction as generalizing spine with
  | nil => exact absurd rfl has
  | cons e as ih =>
    by_cases hlast : as = []
    · subst hlast
      have := height_bounds e spine
      rw [List.singleton_append, alternation_cons e hbs, alternation, height.eq_def (alt _ _)]
      dsimp only
      omega
    · have hrest := ih hlast .alt
      have hnests : (alt e (alternation (as ++ bs))).nests spine =
        (alt e (alternation as)).nests spine := rfl
      rw [List.cons_append, alternation_cons e (List.append_ne_nil_of_left_ne_nil hlast bs),
        alternation_cons e hlast, height, height, hnests]
      omega

theorem height_alternation_le_right (has : as ≠ []) (hbs : bs ≠ []) :
    height (alternation bs) .none ≤ height (alternation (as ++ bs)) .none := by
  have hinside : ∀ cs : List Regex,
      height (alternation bs) .alt ≤ height (alternation (cs ++ bs)) .alt := by
    intro cs
    induction cs with
    | nil => exact Nat.le_refl _
    | cons e cs ih =>
      rw [List.cons_append, alternation_cons e (List.append_ne_nil_of_right_ne_nil cs hbs), height]
      omega
  obtain ⟨e, as, rfl⟩ := List.exists_cons_of_ne_nil has
  have hbounds := height_bounds (alternation bs) .alt
  have hrest := hinside as
  have hnests : (alt e (alternation (as ++ bs))).nests .none = true := rfl
  rw [List.cons_append, alternation_cons e (List.append_ne_nil_of_right_ne_nil as hbs), height,
    hnests]
  simp only [if_true]
  omega

end PathQuery.Regex
