import Mathlib.Computability.Language
import PathQuery.Proofs.Regex.Literal

/-!
# The language of an expression

`language` lists the texts that an expression stands for, by union and concatenation and
without regard to order or captures. An expression that does not ask for the ends of the
text can stop where a text of its language ends (`mem_stops_iff`), so between the marks
of both ends it matches the texts of its language and no others
(`isSome_captures?_whole_iff`).
-/

namespace PathQuery.Regex

open Text

/-! ## Folding and line ends -/

theorem newline_lt_image : ∀ run ∈ foldRuns, '\n'.toNat < run.image := by
  have hall : (foldRuns.all fun run => '\n'.toNat < run.image) = true := by decide +kernel
  intro run hrun
  exact of_decide_eq_true (List.all_eq_true.1 hall run hrun)

theorem ofNat_ne_newline {n : Nat} (h : '\n'.toNat < n) : Char.ofNat n ≠ '\n' := by
  intro heq
  unfold Char.ofNat at heq
  by_cases hvalid : n.isValidChar
  · rw [dif_pos hvalid] at heq
    have hnat : n = '\n'.toNat := congrArg Char.toNat heq
    omega
  · rw [dif_neg hvalid] at heq
    exact absurd heq (by decide)

theorem foldCase_ne_newline {c : Char} (h : c ≠ '\n') : foldCase c ≠ '\n' := by
  unfold foldCase
  split
  · rename_i run hrun
    have hlt := newline_lt_image run (List.mem_of_find?_eq_some hrun)
    exact ofNat_ne_newline (by omega)
  · exact h

theorem foldCase_newline : foldCase '\n' = '\n' := by decide +kernel

/-- Wildcards cover a character if they cover the one that stands for it. -/
theorem covers_canon (mode : Mode) (c : Char) : mode.covers (mode.canon c) = mode.covers c := by
  have hfold : (foldCase c != '\n') = (c != '\n') := by
    by_cases h : c = '\n'
    · rw [h, foldCase_newline]
    · rw [bne_iff_ne.2 h, bne_iff_ne.2 (foldCase_ne_newline h)]
  unfold Mode.covers Mode.canon
  split
  · rw [hfold]
  · rfl

/-! ## Languages -/

/-- The single characters that match `c`. -/
def Mode.alike (mode : Mode) (c : Char) : Language Char :=
  {s | ∃ d, s = [d] ∧ mode.canon d = mode.canon c}

/-- The texts that a wildcard can run over. -/
def Mode.covered (mode : Mode) : Language Char := {s | ∀ d ∈ s, mode.covers d = true}

/-- The texts of at most one character that a wildcard can step over. -/
def Mode.optional (mode : Mode) : Language Char :=
  {s | s.length ≤ 1 ∧ ∀ d ∈ s, mode.covers d = true}

/-- The texts that an expression stands for. The marks of the ends ask nothing of a text. -/
def language (mode : Mode) : Regex → Language Char
  | empty => 1
  | textStart => 1
  | textEnd => 1
  | char c => mode.alike c
  | anyRun => mode.covered
  | anyOne => mode.optional
  | cat a b => language mode a * language mode b
  | alt a b => language mode a + language mode b
  | group e => language mode e
  | plainGroup e => language mode e

/-- An expression without marks of the ends. -/
def Inner : Regex → Prop
  | textStart => False
  | textEnd => False
  | cat a b => Inner a ∧ Inner b
  | alt a b => Inner a ∧ Inner b
  | group e => Inner e
  | plainGroup e => Inner e
  | _ => True

/-- After a run of covered characters nothing more is gained by covered characters. -/
theorem covered_mul (mode : Mode) {l : Language Char} (hnil : [] ∈ l)
    (hle : ∀ s ∈ l, s ∈ mode.covered) : mode.covered * l = mode.covered := by
  ext s
  rw [Language.mem_mul]
  constructor
  · rintro ⟨a, ha, b, hb, rfl⟩ d hd
    rcases List.mem_append.1 hd with hd | hd
    · exact ha d hd
    · exact hle b hb d hd
  · intro hs
    exact ⟨s, hs, [], hnil, List.append_nil s⟩

theorem nil_mem_covered (mode : Mode) : [] ∈ mode.covered :=
  fun _ hd => absurd hd List.not_mem_nil

theorem nil_mem_optional (mode : Mode) : [] ∈ mode.optional :=
  ⟨Nat.zero_le 1, fun _ hd => absurd hd List.not_mem_nil⟩

/-! ## Where an expression stops -/

/-- The places where an expression can stop. -/
def stops (mode : Mode) (text : List Char) (e : Regex) (i : Nat) : List Nat :=
  (ways mode text e i).map Prod.snd

section Stops

variable (mode : Mode) (text : List Char) (a b e : Regex) (i : Nat)

theorem stops_cat :
    stops mode text (cat a b) i = (stops mode text a i).flatMap (stops mode text b) := by
  simp only [stops, ways, List.map_flatMap, List.map_map, List.flatMap_map]
  rfl

theorem stops_alt :
    stops mode text (alt a b) i = stops mode text a i ++ stops mode text b i := by
  simp only [stops, ways, List.map_append, List.map_map]
  rfl

theorem stops_group : stops mode text (group e) i = stops mode text e i := by
  simp only [stops, ways, List.map_map]
  rfl

end Stops

theorem drop_eq_cons_iff {text rest : List Char} {i : Nat} {c : Char} :
    text.drop i = c :: rest ↔ text[i]? = some c ∧ text.drop (i + 1) = rest := by
  constructor
  · intro h
    constructor
    · rw [← List.head?_drop, h, List.head?_cons]
    · rw [← List.tail_drop, h, List.tail_cons]
  · rintro ⟨hc, rfl⟩
    obtain ⟨hi, rfl⟩ := List.getElem?_eq_some_iff.1 hc
    exact List.drop_eq_getElem_cons hi

theorem any_getElem?_iff {p : Char → Bool} {text : List Char} {i : Nat} :
    text[i]?.any p = true ↔ ∃ c rest, text.drop i = c :: rest ∧ p c = true := by
  rw [Option.any_eq_true]
  simp only [drop_eq_cons_iff]
  constructor
  · rintro ⟨c, hc, hp⟩
    exact ⟨c, _, ⟨hc, rfl⟩, hp⟩
  · rintro ⟨c, rest, ⟨hc, -⟩, hp⟩
    exact ⟨c, hc, hp⟩

theorem mem_strides_iff {p : Char → Bool} {text : List Char} {n : Nat} :
    n ∈ strides p text ↔ ∃ s rest, text = s ++ rest ∧ s.length = n ∧ ∀ c ∈ s, p c = true := by
  induction text generalizing n with
  | nil =>
    simp only [strides, List.mem_singleton, List.nil_eq, List.append_eq_nil_iff]
    constructor
    · rintro rfl
      exact ⟨[], [], ⟨rfl, rfl⟩, rfl, fun c hc => absurd hc List.not_mem_nil⟩
    · rintro ⟨s, rest, ⟨rfl, -⟩, rfl, -⟩
      rfl
  | cons c text ih =>
    rw [strides]
    constructor
    · intro h
      have hzero : n = 0 → ∃ s rest, c :: text = s ++ rest ∧ s.length = n ∧
          ∀ d ∈ s, p d = true := by
        rintro rfl
        exact ⟨[], c :: text, rfl, rfl, fun d hd => absurd hd List.not_mem_nil⟩
      split at h
      · rename_i hc
        rcases List.mem_append.1 h with h | h
        · obtain ⟨k, hk, rfl⟩ := List.mem_map.1 h
          obtain ⟨s, rest, rfl, rfl, hs⟩ := ih.1 hk
          refine ⟨c :: s, rest, rfl, rfl, ?_⟩
          intro d hd
          rcases List.mem_cons.1 hd with rfl | hd
          · exact hc
          · exact hs d hd
        · exact hzero (List.mem_singleton.1 h)
      · exact hzero (List.mem_singleton.1 h)
    · rintro ⟨s, rest, htext, rfl, hs⟩
      cases s with
      | nil =>
        split
        · exact List.mem_append_right _ (List.mem_singleton_self _)
        · exact List.mem_singleton_self _
      | cons d s =>
        obtain ⟨rfl, rfl⟩ := List.cons.inj htext
        rw [if_pos (hs c List.mem_cons_self)]
        apply List.mem_append_left
        exact List.mem_map.2 ⟨s.length,
          ih.2 ⟨s, rest, rfl, rfl, fun d hd => hs d (List.mem_cons_of_mem c hd)⟩, rfl⟩

theorem strides_map (p : Char → Bool) (f : Char → Char) (h : ∀ c, p (f c) = p c)
    (text : List Char) : strides p (text.map f) = strides p text := by
  induction text with
  | nil => rfl
  | cons c text ih => rw [List.map_cons, strides, strides, h, ih]

/-- An expression stops where a text of its language ends. -/
theorem mem_stops_iff {mode : Mode} {text : List Char} {e : Regex} (he : e.Inner) {i j : Nat} :
    j ∈ stops mode (text.map mode.canon) e i ↔
      ∃ s ∈ e.language mode, ∃ rest, text.drop i = s ++ rest ∧ j = i + s.length := by
  induction e generalizing i j with
  | textStart => exact he.elim
  | textEnd => exact he.elim
  | empty =>
    simp only [stops, ways, List.map_singleton, List.mem_singleton, language, Language.mem_one,
      exists_eq_left, List.nil_append, exists_eq_left', List.length_nil, Nat.add_zero]
  | char c =>
    have hhere : ((text.map mode.canon)[i]?.any fun d => d == mode.canon c) = true ↔
        ∃ d rest, text.drop i = d :: rest ∧ mode.canon d = mode.canon c := by
      rw [List.getElem?_map, Option.any_map, any_getElem?_iff]
      simp only [beq_iff_eq]
    rw [stops, ways]
    constructor
    · intro h
      split at h
      · rename_i hc
        obtain ⟨d, rest, hdrop, hd⟩ := hhere.1 hc
        exact ⟨[d], ⟨d, rfl, hd⟩, rest, hdrop, List.mem_singleton.1 h⟩
      · cases h
    · rintro ⟨s, ⟨d, rfl, hd⟩, rest, hdrop, rfl⟩
      rw [if_pos (hhere.2 ⟨d, rest, hdrop, hd⟩)]
      exact List.mem_singleton_self _
  | anyRun =>
    rw [stops, ways, List.map_map, ← List.map_drop, strides_map _ _ (covers_canon mode),
      List.mem_map]
    simp only [Function.comp_apply, mem_strides_iff]
    constructor
    · rintro ⟨n, ⟨s, rest, hdrop, rfl, hs⟩, rfl⟩
      exact ⟨s, hs, rest, hdrop, rfl⟩
    · rintro ⟨s, hs, rest, hdrop, rfl⟩
      exact ⟨s.length, ⟨s, rest, hdrop, rfl, hs⟩, rfl⟩
  | anyOne =>
    have hhere : ((text.map mode.canon)[i]?.any mode.covers) = true ↔
        ∃ d rest, text.drop i = d :: rest ∧ mode.covers d = true := by
      rw [List.getElem?_map, Option.any_map, any_getElem?_iff]
      simp only [covers_canon]
    rw [stops, ways, List.map_append, List.mem_append]
    constructor
    · rintro (h | h)
      · split at h
        · rename_i hc
          obtain ⟨d, rest, hdrop, hd⟩ := hhere.1 hc
          refine ⟨[d], ⟨Nat.le_refl 1, ?_⟩, rest, hdrop, List.mem_singleton.1 h⟩
          simpa using hd
        · cases h
      · exact ⟨[], nil_mem_optional mode, _, rfl, List.mem_singleton.1 h⟩
    · rintro ⟨s, ⟨hlength, hs⟩, rest, hdrop, rfl⟩
      rcases s with _ | ⟨d, _ | ⟨_, _⟩⟩
      · exact .inr (List.mem_singleton_self _)
      · have hc := hhere.2 ⟨d, rest, hdrop, hs d List.mem_cons_self⟩
        rw [if_pos hc]
        exact .inl (List.mem_singleton_self _)
      · simp only [List.length_cons] at hlength
        omega
  | cat a b iha ihb =>
    rw [stops_cat, List.mem_flatMap, language]
    simp only [Language.mem_mul]
    constructor
    · rintro ⟨k, hk, hj⟩
      obtain ⟨s, hs, rest, hdrop, rfl⟩ := (iha he.1).1 hk
      obtain ⟨t, ht, rest', hdrop', rfl⟩ := (ihb he.2).1 hj
      refine ⟨s ++ t, ⟨s, hs, t, ht, rfl⟩, rest', ?_, ?_⟩
      · rw [← List.drop_drop, hdrop, List.drop_left] at hdrop'
        rw [hdrop, hdrop', List.append_assoc]
      · rw [List.length_append, Nat.add_assoc]
    · rintro ⟨_, ⟨s, hs, t, ht, rfl⟩, rest, hdrop, rfl⟩
      rw [List.append_assoc] at hdrop
      refine ⟨i + s.length, (iha he.1).2 ⟨s, hs, _, hdrop, rfl⟩, ?_⟩
      refine (ihb he.2).2 ⟨t, ht, rest, ?_, ?_⟩
      · rw [← List.drop_drop, hdrop, List.drop_left]
      · rw [List.length_append, Nat.add_assoc]
  | alt a b iha ihb =>
    rw [stops_alt, List.mem_append, iha he.1, ihb he.2, language]
    simp only [Language.mem_add, or_and_right, exists_or]
  | group e ih =>
    rw [stops_group]
    exact ih he
  | plainGroup e ih => exact ih he

/-- Between the marks of both ends an expression matches the texts of its language. -/
theorem isSome_captures?_whole_iff {body : Regex} (h : body.Inner) (mode : Mode)
    (text : List Char) :
    ((whole body).captures? mode text).isSome ↔ text ∈ body.language mode := by
  have hstop : ((whole body).captures? mode text).isSome ↔
      text.length ∈ stops mode (text.map mode.canon) body 0 := by
    rw [captures?, search?_whole, Option.isSome_map, Option.isSome_map, List.find?_isSome, stops,
      List.mem_map]
    simp only [beq_iff_eq]
  rw [hstop, mem_stops_iff h]
  constructor
  · rintro ⟨s, hs, rest, hdrop, hlength⟩
    rw [List.drop_zero] at hdrop
    rw [hdrop, List.length_append] at hlength
    have hrest : rest = [] := List.eq_nil_of_length_eq_zero (by omega)
    rw [hdrop, hrest, List.append_nil]
    exact hs
  · intro htext
    exact ⟨text, htext, [], (List.append_nil text).symm, (Nat.zero_add _).symm⟩

end PathQuery.Regex
