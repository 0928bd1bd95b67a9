import Mathlib.Data.List.Forall2
import PathQuery.Proofs.Path.Join

/-!
# Spelling paths

A path is spelled from steps (`Step`): each is a step to the parent or a segment with a key, both
perhaps with a value. Their texts are written with a backslash before each slash (`spellText`), and
may hold everything else that the reader of paths passes over (`Writable`). Then the reader finds
each text whole (`segmentTexts_spellText_append`) and its key before the first bare equals sign
(`splitValue_append`), so the segments of a path are the steps that it was spelled from
(`ofPath_spellPath`).
-/

namespace PathQuery

namespace Path

/-! ## Texts -/

/-- The characters of a text that stand for themselves, as no backslash is before them. -/
def bare : List Char → List Char
  | [] => []
  | ['\\'] => []
  | '\\' :: _ :: rest => bare rest
  | c :: rest => c :: bare rest

/-- The characters of a text that have a backslash before them. -/
def escaped : List Char → List Char
  | [] => []
  | ['\\'] => []
  | '\\' :: c :: rest => c :: escaped rest
  | _ :: rest => escaped rest

/-- A text that a path can hold: it is not empty, does not end with a backslash that waits for its
character, and has no slash behind a backslash, where the reader of paths would take the backslash
away. -/
structure Writable (text : List Char) : Prop where
  ne_nil : text ≠ []
  closed : endsOpen text = false
  slashes : '/' ∉ escaped text

instance (text : List Char) : Decidable (Writable text) :=
  decidable_of_iff (text ≠ [] ∧ endsOpen text = false ∧ '/' ∉ escaped text)
    ⟨fun ⟨hne, hclosed, hslashes⟩ => ⟨hne, hclosed, hslashes⟩,
      fun h => ⟨h.ne_nil, h.closed, h.slashes⟩⟩

/-- A text as a path holds it, with a backslash before each slash. -/
def spellText (text : List Char) : List Char := quote (· == '/') text

/-- A text that the reader of paths finds whole. -/
structure Whole (text : List Char) : Prop where
  units : Units text
  slashes : '/' ∉ escaped text

theorem Writable.whole {text : List Char} (h : Writable text) : Whole text :=
  ⟨units_of_endsOpen h.closed, h.slashes⟩

theorem bare_cons_of_ne {c : Char} (h : c ≠ '\\') (rest : List Char) :
    bare (c :: rest) = c :: bare rest := by
  rw [bare]
  · exact fun heq _ => h heq
  · exact fun _ _ heq _ => h heq

theorem escaped_cons_of_ne {c : Char} (h : c ≠ '\\') (rest : List Char) :
    escaped (c :: rest) = escaped rest := by
  rw [escaped]
  · exact fun heq _ => h heq
  · exact fun _ _ heq _ => h heq

theorem spellText_append (text rest : List Char) :
    spellText (text ++ rest) = spellText text ++ spellText rest := by
  unfold spellText
  induction text with
  | nil => rfl
  | cons c text ih =>
    rw [List.cons_append, quote, quote, ih]
    split <;> rfl

theorem escaped_append {text : List Char} (h : Units text) (rest : List Char) :
    escaped (text ++ rest) = escaped text ++ escaped rest := by
  induction h with
  | nil => rfl
  | plain hne _ ih => rw [List.cons_append, escaped_cons_of_ne hne, escaped_cons_of_ne hne, ih]
  | escape c _ ih => exact congrArg (c :: ·) ih

theorem Whole.append {text rest : List Char} (h : Whole text) (hrest : Whole rest) :
    Whole (text ++ rest) where
  units := h.units.append hrest.units
  slashes := by
    rw [escaped_append h.units, List.mem_append, not_or]
    exact ⟨h.slashes, hrest.slashes⟩

/-- The reader of paths finds a text as it was before it was spelled. -/
theorem segmentTexts_spellText_append {text : List Char} (h : Whole text) (rest : List Char) :
    segmentTexts (spellText text ++ rest) = text.foldr consHead (segmentTexts rest) := by
  obtain ⟨hunits, hslashes⟩ := h
  unfold spellText
  induction hunits with
  | nil => rfl
  | @plain c text hne _ ih =>
    rw [escaped_cons_of_ne hne] at hslashes
    by_cases hc : c = '/'
    · rw [hc, quote_cons_of_pos rfl, List.foldr_cons, ← ih hslashes]
      rfl
    · rw [quote_cons_of_neg (by simpa using hc), List.cons_append,
        segmentTexts_cons_of_ne hc hne, ih hslashes, List.foldr_cons]
  | @escape c text _ ih =>
    obtain ⟨hc, hslashes⟩ := not_or.1 (mt List.mem_cons.2 hslashes)
    have hne : c ≠ '/' := fun heq => hc heq.symm
    rw [quote_cons_of_neg (by decide), quote_cons_of_neg (by simpa using hne), List.cons_append,
      List.cons_append, segmentTexts_backslash_cons hne, ih hslashes, List.foldr_cons,
      List.foldr_cons]

/-- The reader of keys passes over a text without a bare equals sign. -/
theorem splitValue_append {text : List Char} (hunits : Units text) (heq : '=' ∉ bare text)
    (rest : List Char) :
    splitValue (text ++ rest) = (text ++ (splitValue rest).1, (splitValue rest).2) := by
  induction hunits with
  | nil => rfl
  | @plain c text hne _ ih =>
    rw [bare_cons_of_ne hne] at heq
    obtain ⟨hc, heq⟩ := not_or.1 (mt List.mem_cons.2 heq)
    rw [List.cons_append, splitValue_cons_of_ne (fun h => hc h.symm) hne, ih heq]
    rfl
  | escape c _ ih =>
    rw [List.cons_append, List.cons_append, splitValue, ih heq]
    rfl

/-! ## Steps -/

/-- A step of a path, as it is written. -/
inductive Step
  /-- A step to the parent. -/
  | parent (value : Option (List Char))
  /-- A segment with a key, either of which may be missing, and whether the whole subtree is
  searched for it. -/
  | entry (recursive : Bool) (key value : Option (List Char))

namespace Step

/-- The texts of a step can be written: a key has no bare equals sign, where its value would begin,
and is none of the marks, of which a dot is one only without a value. -/
def Valid : Step → Prop
  | parent value => ∀ v ∈ value, Writable v
  | entry _ key value =>
    (∀ k ∈ key, Writable k ∧ '=' ∉ bare k ∧ k ≠ ['.', '.'] ∧ k ≠ ['*', '*'] ∧
      (k = ['.'] → value ≠ none)) ∧ ∀ v ∈ value, Writable v

instance : (step : Step) → Decidable step.Valid
  | parent value => inferInstanceAs (Decidable (∀ v ∈ value, Writable v))
  | entry _ key value =>
    inferInstanceAs (Decidable ((∀ k ∈ key, Writable k ∧ '=' ∉ bare k ∧ k ≠ ['.', '.'] ∧
      k ≠ ['*', '*'] ∧ (k = ['.'] → value ≠ none)) ∧ ∀ v ∈ value, Writable v))

def spellValue : Option (List Char) → List Char
  | none => []
  | some value => '=' :: spellText value

/-- A key and a value with an equals sign before it, which stands alone if both are missing. -/
def spellEntry : Option (List Char) → Option (List Char) → List Char
  | none, none => ['=']
  | none, some value => '=' :: spellText value
  | some key, value => spellText key ++ spellValue value

def spell : Step → List Char
  | parent value => ['.', '.'] ++ spellValue value
  | entry recursive key value => (if recursive then ['*', '*', '/'] else []) ++ spellEntry key value

/-- The segment that a step is. -/
def segment : Step → Segment
  | parent value => { key := some .parent, value := value.map Segment.textToken, recursive := false }
  | entry recursive key value =>
    { key := key.map Segment.textToken, value := value.map Segment.textToken, recursive }

end Step

/-- Steps with slashes between them, and perhaps a `**` at the end that no step follows. -/
def spellPath (steps : List Step) (trailing : Bool) : List Char :=
  List.intercalate ['/'] (steps.map Step.spell ++ if trailing then [['*', '*']] else [])

/-- The segments that steps are, and the one that a `**` at the end stands for. -/
def stepSegments (steps : List Step) (trailing : Bool) : List Segment :=
  steps.map Step.segment ++
    if trailing then [{ key := some (.pattern .any), value := none, recursive := true }] else []

/-! ## Reading steps -/

/-- A part of a path that is read as some texts, at the end of the path and before a slash. -/
structure Spells (part : List Char) (texts : List (List Char)) : Prop where
  last : segmentTexts part = texts
  slash : ∀ rest, segmentTexts (part ++ '/' :: rest) = texts ++ segmentTexts rest

theorem spells_spellText {text : List Char} (hne : text ≠ []) (h : Whole text) :
    Spells (spellText text) [text] where
  last := by
    have hread := segmentTexts_spellText_append h []
    rw [List.append_nil, segmentTexts, foldr_consHead_nil hne] at hread
    exact hread
  slash rest := by
    rw [segmentTexts_spellText_append h, segmentTexts, foldr_consHead_cons, List.append_nil]
    rfl

/-- A `**` before a part is a text of its own. -/
theorem Spells.recursive {part : List Char} {texts : List (List Char)} (h : Spells part texts) :
    Spells (['*', '*', '/'] ++ part) (['*', '*'] :: texts) where
  last := congrArg (['*', '*'] :: ·) h.last
  slash rest := congrArg (['*', '*'] :: ·) (h.slash rest)

/-- Parts with slashes between them are read one after the other. -/
theorem segmentTexts_intercalate {parts : List (List Char)} {texts : List (List (List Char))}
    (h : List.Forall₂ Spells parts texts) :
    segmentTexts (List.intercalate ['/'] parts) = texts.flatten := by
  induction h with
  | nil => rfl
  | @cons part first parts texts hfirst hrest ih =>
    cases hrest with
    | nil => simp [hfirst.last]
    | cons hsecond hrest =>
      rw [List.intercalate_cons_cons, List.append_assoc, List.singleton_append, hfirst.slash, ih]
      rfl

namespace Step

def valueText : Option (List Char) → List Char
  | none => []
  | some value => '=' :: value

/-- The key and the value of an entry in one text. -/
def entryText : Option (List Char) → Option (List Char) → List Char
  | none, none => ['=']
  | key, value => key.getD [] ++ valueText value

/-- The texts of a step. -/
def texts : Step → List (List Char)
  | parent value => [['.', '.'] ++ valueText value]
  | entry recursive key value => (if recursive then [['*', '*']] else []) ++ [entryText key value]

section Texts

variable {key value : Option (List Char)} (hkey : ∀ k ∈ key, Writable k)
  (hvalue : ∀ v ∈ value, Writable v)

include hvalue

theorem whole_valueText : Whole (valueText value) := by
  cases value with
  | none => exact ⟨.nil, List.not_mem_nil⟩
  | some v =>
    have hv := (hvalue v rfl).whole
    refine ⟨.plain (by decide) hv.units, ?_⟩
    rw [valueText, escaped_cons_of_ne (by decide)]
    exact hv.slashes

include hkey

theorem whole_entryText : Whole (entryText key value) := by
  cases key with
  | none =>
    cases value with
    | none => exact ⟨.plain (by decide) .nil, by decide⟩
    | some v => exact whole_valueText hvalue
  | some k => exact (hkey k rfl).whole.append (whole_valueText hvalue)

theorem entryText_ne_nil : entryText key value ≠ [] := by
  cases key with
  | none => cases value <;> exact List.cons_ne_nil _ _
  | some k => exact List.append_ne_nil_of_left_ne_nil (hkey k rfl).ne_nil _

end Texts

theorem spellValue_eq (value : Option (List Char)) :
    spellValue value = spellText (valueText value) := by
  cases value <;> rfl

theorem spellEntry_eq (key value : Option (List Char)) :
    spellEntry key value = spellText (entryText key value) := by
  cases key with
  | none => cases value <;> rfl
  | some k =>
    rw [spellEntry, spellValue_eq, ← spellText_append]
    rfl

theorem spells_spell {step : Step} (h : step.Valid) : Spells step.spell step.texts := by
  cases step with
  | parent value =>
    have hwhole : Whole (['.', '.'] ++ valueText value) :=
      .append ⟨.plain (by decide) (.plain (by decide) .nil), by decide⟩ (whole_valueText h)
    rw [spell, spellValue_eq]
    exact spells_spellText (List.cons_ne_nil _ _) hwhole
  | entry recursive key value =>
    obtain ⟨hkey, hvalue⟩ := h
    have hkeys : ∀ k ∈ key, Writable k := fun k hk => (hkey k hk).1
    have hentry := spells_spellText (entryText_ne_nil hkeys hvalue) (whole_entryText hkeys hvalue)
    rw [spell, spellEntry_eq]
    cases recursive with
    | false => exact hentry
    | true => exact hentry.recursive

/-! ## Segments of steps -/

theorem filter_ne_nil {value : Option (List Char)} (h : ∀ v ∈ value, Writable v) :
    value.filter (· ≠ []) = value := by
  cases value with
  | none => rfl
  | some v => simp [(h v rfl).ne_nil]

theorem splitValue_valueText (value : Option (List Char)) :
    splitValue (valueText value) = ([], value) := by
  cases value <;> rfl

/-- The text of an entry is a segment, for which the subtree is searched if a `**` waits. -/
theorem ofTexts_entryText {recursive : Bool} {key value : Option (List Char)}
    (h : (entry recursive key value).Valid) (rest : List (List Char)) :
    Segment.ofTexts recursive (entryText key value :: rest) =
      (entry recursive key value).segment :: Segment.ofTexts false rest := by
  obtain ⟨hkey, hvalue⟩ := h
  cases key with
  | none =>
    cases value with
    | none => rfl
    | some v =>
      have hread : Segment.ofTexts recursive (('=' :: v) :: rest) =
          ⟨none, ((some v).filter (· ≠ [])).map Segment.textToken, recursive, false⟩ ::
            Segment.ofTexts false rest := rfl
      rw [filter_ne_nil hvalue] at hread
      exact hread
  | some k =>
    obtain ⟨hk, hbare, hup, hall, hdot⟩ := hkey k rfl
    have hsplit : splitValue (k ++ valueText value) = (k, value) := by
      rw [splitValue_append hk.whole.units hbare, splitValue_valueText, List.append_nil]
    have hmark : ∀ mark, splitValue mark = (mark, none) → k ++ valueText value = mark →
        k = mark ∧ value = none := by
      rintro mark hmark rfl
      rw [hsplit, Prod.mk.injEq] at hmark
      exact hmark
    have hread := Segment.ofTexts_cons_of_splitValue hsplit
      (List.append_ne_nil_of_left_ne_nil hk.ne_nil _)
      (fun heq => (hmark ['.'] rfl heq).elim hdot) (fun heq => hall (hmark ['*', '*'] rfl heq).1)
      hk.ne_nil hup hall recursive rest
    rw [filter_ne_nil hvalue] at hread
    exact hread

theorem ofTexts_texts {step : Step} (h : step.Valid) (rest : List (List Char)) :
    Segment.ofTexts false (step.texts ++ rest) = step.segment :: Segment.ofTexts false rest := by
  cases step with
  | parent value =>
    cases value with
    | none => rfl
    | some v =>
      have hread : Segment.ofTexts false (('.' :: '.' :: '=' :: v) :: rest) =
          ⟨some .parent, ((some v).filter (· ≠ [])).map Segment.textToken, false, false⟩ ::
            Segment.ofTexts false rest := rfl
      rw [filter_ne_nil h] at hread
      exact hread
  | entry recursive key value =>
    cases recursive with
    | false => exact ofTexts_entryText h rest
    | true =>
      have hread := ofTexts_entryText h rest
      rwa [← Segment.ofTexts] at hread

theorem ofTexts_flatMap_texts {steps : List Step} (h : ∀ step ∈ steps, step.Valid)
    (rest : List (List Char)) :
    Segment.ofTexts false (steps.flatMap texts ++ rest) =
      steps.map segment ++ Segment.ofTexts false rest := by
  induction steps with
  | nil => rfl
  | cons step steps ih =>
    obtain ⟨hstep, hsteps⟩ := List.forall_mem_cons.1 h
    rw [List.flatMap_cons, List.append_assoc, ofTexts_texts hstep, ih hsteps, List.map_cons,
      List.cons_append]

end Step

theorem segmentTexts_spellPath {steps : List Step} (h : ∀ step ∈ steps, step.Valid)
    (trailing : Bool) :
    segmentTexts (spellPath steps trailing) =
      steps.flatMap Step.texts ++ if trailing then [['*', '*']] else [] := by
  have hsteps : List.Forall₂ Spells (steps.map Step.spell) (steps.map Step.texts) := by
    rw [List.forall₂_map_left_iff, List.forall₂_map_right_iff, List.forall₂_same]
    exact fun step hmem => Step.spells_spell (h step hmem)
  have htrailing : List.Forall₂ Spells (if trailing then [['*', '*']] else [])
      (if trailing then [[['*', '*']]] else []) := by
    cases trailing with
    | false => exact .nil
    | true => exact .cons ⟨rfl, fun _ => rfl⟩ .nil
  rw [spellPath, segmentTexts_intercalate (List.rel_append hsteps htrailing), List.flatten_append,
    List.flatMap_def]
  cases trailing <;> rfl

end Path

/-! ## The last segment -/

/-- Of segments without a mark the last one gets it. -/
theorem Segment.markLast_eq_mapIdx {segments : List Segment}
    (h : ∀ segment ∈ segments, segment.last = false) :
    markLast segments =
      segments.mapIdx fun i segment => { segment with last := i + 1 == segments.length } := by
  induction segments with
  | nil => rfl
  | cons segment rest ih =>
    obtain ⟨hsegment, hrest⟩ := List.forall_mem_cons.1 h
    cases rest with
    | nil => rfl
    | cons next rest =>
      have hfirst : segment = { segment with last := 0 + 1 == (segment :: next :: rest).length } := by
        cases segment
        simpa using hsegment
      have hmark : markLast (segment :: next :: rest) = segment :: markLast (next :: rest) := rfl
      rw [hmark, ih hrest, List.mapIdx_cons (a := segment), ← hfirst]
      simp

namespace Path

theorem last_of_mem_stepSegments {steps : List Step} {trailing : Bool} {segment : Segment}
    (h : segment ∈ stepSegments steps trailing) : segment.last = false := by
  rcases List.mem_append.1 h with hmem | hmem
  · obtain ⟨step, -, rfl⟩ := List.mem_map.1 hmem
    cases step <;> rfl
  · cases trailing with
    | false => cases hmem
    | true =>
      obtain rfl := List.mem_singleton.1 hmem
      rfl

/-- **A path is read as it was spelled.** The segments of a path that is spelled from steps are
these steps: the keys and values with the texts that were spelled, the marks of a search, and at
the end the segment for everything if a `**` stands there. The last of them is marked as such. -/
theorem ofPath_spellPath (steps : List Step) (trailing : Bool)
    (h : ∀ step ∈ steps, step.Valid) :
    Segment.ofPath (spellPath steps trailing) =
      (stepSegments steps trailing).mapIdx fun i segment =>
        { segment with last := i + 1 == (stepSegments steps trailing).length } := by
  rw [Segment.ofPath, segmentTexts_spellPath h, Step.ofTexts_flatMap_texts h]
  have htrailing : Segment.ofTexts false (if trailing then [['*', '*']] else []) =
      if trailing then [{ key := some (.pattern .any), value := none, recursive := true }]
      else [] := by
    cases trailing <;> rfl
  rw [htrailing]
  exact Segment.markLast_eq_mapIdx fun segment => last_of_mem_stepSegments

/-- Keys and values that hold slashes, equals signs and marks, a step without either, and a `**`
at the end. -/
theorem ofPath_spellPath_marks :
    (∀ step ∈ [Step.entry true (some "a/\\=b".toList) (some "c=/\\\\".toList),
        .parent (some "..".toList), .entry false (some ".".toList) (some "**".toList),
        .entry true none none], step.Valid) ∧
      Segment.ofPath "**/a\\/\\=b=c=\\/\\\\/..=../.=**/**/=/**".toList =
        [⟨some (.text "a/\\=b"), some (.text "c=/\\\\"), true, false⟩,
          ⟨some .parent, some (.text ".."), false, false⟩,
          ⟨some (.text "."), some (.text "**"), false, false⟩, ⟨none, none, true, false⟩,
          ⟨some (.pattern .any), none, true, true⟩] := by
  have hvalid : ∀ step ∈ [Step.entry true (some "a/\\=b".toList) (some "c=/\\\\".toList),
      .parent (some "..".toList), .entry false (some ".".toList) (some "**".toList),
      .entry true none none], step.Valid := by
    decide
  exact ⟨hvalid, ofPath_spellPath _ true hvalid⟩

end Path

end PathQuery
