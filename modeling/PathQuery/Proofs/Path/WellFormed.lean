import PathQuery.Proofs.Path.Spelling

/-!
# What segments can be

Whatever marks a path holds, its segments have a form that those who use them can rely on
(`WellFormed`). Each text adds at most one segment of that form, and the one for everything comes
only behind all texts (`parsed_ofTexts`). Marking the last segment completes the form
(`wellFormed_of_getElem?_ofPath`).
-/

namespace PathQuery

namespace Path

/-- The first bare equals sign of a text ends its key. -/
theorem not_mem_bare_splitValue (text : List Char) : '=' ∉ bare (splitValue text).1 := by
  fun_induction splitValue text with
  | case1 => exact List.not_mem_nil
  | case2 => exact List.not_mem_nil
  | case3 c rest ih => exact ih
  | case4 c rest heq hescape ih =>
    by_cases hc : c = '\\'
    · subst hc
      cases rest with
      | nil => exact List.not_mem_nil
      | cons d rest => exact (hescape d rest rfl rfl).elim
    · rw [bare_cons_of_ne hc]
      exact List.not_mem_cons_of_ne_of_not_mem (fun h => heq h.symm) ih

end Path

namespace Segment

open PathQuery.Path

/-! ## The form of a segment -/

/-- A text that the key of a segment can be: it is not empty and no mark, and has no bare equals
sign, behind which the value would begin. -/
structure IsKeyText (text : String) : Prop where
  ne_empty : text ≠ ""
  ne_up : text ≠ ".."
  ne_all : text ≠ "**"
  equals : '=' ∉ bare text.toList

/-- What a segment of a path can be, `final` telling whether it is the last one. -/
structure WellFormed (final : Bool) (segment : Segment) : Prop where
  /-- No step to the parent searches a subtree. -/
  parent : segment.key = some .parent → segment.recursive = false
  text : ∀ text, segment.key = some (.text text) → IsKeyText text
  atom : ∀ key, segment.key ≠ some (.atom key)
  /-- A key that is a pattern is the one for everything, which only ends a path. -/
  pattern : ∀ p, segment.key = some (.pattern p) →
    p = .any ∧ final = true ∧ segment.recursive = true ∧ segment.value = none
  /-- A value is text, and not empty. -/
  value : ∀ token ∈ segment.value, ∃ text, token = .text text ∧ text ≠ ""
  last : segment.last = final

/-- The segment that a `**` at the end of a path stands for. -/
def everything : Segment := { key := some (.pattern .any), value := none, recursive := true }

/-- Segments as they are read: none of them is the last one but that for everything. -/
inductive Parsed : List Segment → Prop
  | nil : Parsed []
  | trailing : Parsed [everything]
  | cons {segment : Segment} {rest : List Segment} :
      segment.WellFormed false → Parsed rest → Parsed (segment :: rest)

/-! ## One text -/

theorem exists_text_of_mem_value (value : Option (List Char)) :
    ∀ token ∈ (value.filter (· ≠ [])).map textToken, ∃ text, token = .text text ∧ text ≠ "" := by
  intro token htoken
  obtain ⟨text, htext, rfl⟩ := Option.map_eq_some_iff.1 htoken
  have hne : text ≠ [] := of_decide_eq_true (Option.filter_eq_some_iff.1 htext).2
  exact ⟨_, rfl, mt String.ofList_eq_empty_iff.1 hne⟩

theorem isKeyText_ofList {key : List Char} (hnil : key ≠ []) (hup : key ≠ ['.', '.'])
    (hall : key ≠ ['*', '*']) (hequals : '=' ∉ bare key) : IsKeyText (String.ofList key) := by
  have hne : ∀ mark : String, key ≠ mark.toList → String.ofList key ≠ mark := by
    rintro mark hmark rfl
    exact hmark String.toList_ofList.symm
  refine ⟨hne "" hnil, hne ".." hup, hne "**" hall, ?_⟩
  rwa [String.toList_ofList]

/-- What a text can have as its key. -/
inductive TextKey (recursive : Bool) : Option Token → Prop
  | absent : TextKey recursive none
  | parent : recursive = false → TextKey recursive (some .parent)
  | text {text : String} : IsKeyText text → TextKey recursive (some (.text text))

theorem wellFormed_of_textKey {key value : Option Token} {recursive : Bool}
    (hkey : TextKey recursive key)
    (hvalue : ∀ token ∈ value, ∃ text, token = .text text ∧ text ≠ "") :
    WellFormed false ⟨key, value, recursive, false⟩ := by
  cases hkey with
  | absent => exact ⟨nofun, nofun, nofun, nofun, hvalue, rfl⟩
  | parent hrecursive => exact ⟨fun _ => hrecursive, nofun, nofun, nofun, hvalue, rfl⟩
  | text htext =>
    refine ⟨nofun, fun text heq => ?_, nofun, nofun, hvalue, rfl⟩
    rwa [← Token.text.inj (Option.some.inj heq)]

/-! ## All texts -/

theorem parsed_ofTexts (pending : Bool) (texts : List (List Char)) :
    Parsed (ofTexts pending texts) := by
  have hvalue := exists_text_of_mem_value
  have hstar : IsKeyText (String.ofList ['*']) :=
    isKeyText_ofList (by decide) (by decide) (by decide) (by decide)
  fun_induction ofTexts pending texts with
  | case1 => exact .trailing
  | case2 => exact .nil
  | case3 _ _ ih => exact ih
  | case4 _ _ ih => exact ih
  | case5 _ _ ih => exact ih
  | case6 _ _ _ _ _ _ _ _ _ _ ih =>
    exact .cons (wellFormed_of_textKey (.parent rfl) (hvalue _)) ih
  | case7 _ _ _ _ _ _ _ _ _ _ _ ih => exact ih
  | case8 _ _ _ _ _ _ _ _ _ _ _ ih =>
    exact .cons (wellFormed_of_textKey (.text hstar) (hvalue _)) ih
  | case9 _ _ _ _ _ _ _ _ _ ih =>
    exact .cons (wellFormed_of_textKey (.text hstar) (hvalue _)) ih
  | case10 _ _ _ _ _ _ _ _ _ ih =>
    exact .cons (wellFormed_of_textKey .absent (hvalue _)) ih
  | case11 _ text _ _ _ _ key _ hsplit _ hup hall hnil ih =>
    -- the key is none of the marks, and the equals sign that ends it is not in it
    have hequals := not_mem_bare_splitValue text
    rw [hsplit] at hequals
    have hkey := isKeyText_ofList hnil hup hall hequals
    exact .cons (wellFormed_of_textKey (.text hkey) (hvalue _)) ih

/-! ## The last segment -/

theorem Parsed.last {segments : List Segment} (h : Parsed segments) :
    ∀ segment ∈ segments, segment.last = false := by
  induction h with
  | nil => exact List.forall_mem_nil _
  | trailing => exact List.forall_mem_singleton.2 rfl
  | cons hsegment _ ih => exact List.forall_mem_cons.2 ⟨hsegment.last, ih⟩

/-- Only the last segment can be the one for everything. -/
theorem Parsed.wellFormed_or_everything {segments : List Segment} (h : Parsed segments) {i : Nat}
    {segment : Segment} (hi : segments[i]? = some segment) :
    segment.WellFormed false ∨ segment = everything ∧ i + 1 = segments.length := by
  induction h generalizing i with
  | nil => cases hi
  | trailing =>
    cases i with
    | zero => exact .inr ⟨(Option.some.inj hi).symm, rfl⟩
    | succ i => cases hi
  | cons hsegment _ ih =>
    cases i with
    | zero => exact .inl (Option.some.inj hi ▸ hsegment)
    | succ i => exact (ih hi).imp_right (And.imp_right (congrArg (· + 1)))

theorem WellFormed.marked {segment : Segment} (h : segment.WellFormed false) (final : Bool) :
    WellFormed final { segment with last := final } where
  parent := h.parent
  text := h.text
  atom := h.atom
  pattern p hp := absurd (h.pattern p hp).2.1 Bool.false_ne_true
  value := h.value
  last := rfl

theorem wellFormed_everything : WellFormed true { everything with last := true } where
  parent := nofun
  text := nofun
  atom := nofun
  pattern _ hp := ⟨(Token.pattern.inj (Option.some.inj hp)).symm, rfl, rfl, rfl⟩
  value := nofun
  last := rfl

/-- The segments of a path are those of its texts, the last one marked. -/
theorem ofPath_eq_mapIdx (path : List Char) :
    ofPath path = (ofTexts false (segmentTexts path)).mapIdx fun i segment =>
      { segment with last := i + 1 == (ofTexts false (segmentTexts path)).length } :=
  markLast_eq_mapIdx (parsed_ofTexts false _).last

theorem length_ofPath (path : List Char) :
    (ofPath path).length = (ofTexts false (segmentTexts path)).length := by
  rw [ofPath_eq_mapIdx, List.length_mapIdx]

theorem wellFormed_of_getElem?_ofPath {path : List Char} {i : Nat} {segment : Segment}
    (h : (ofPath path)[i]? = some segment) : segment.WellFormed (i + 1 == (ofPath path).length) := by
  rw [length_ofPath]
  rw [ofPath_eq_mapIdx, List.getElem?_mapIdx] at h
  obtain ⟨read, hread, rfl⟩ := Option.map_eq_some_iff.1 h
  rcases (parsed_ofTexts false _).wellFormed_or_everything hread with hwell | ⟨rfl, hlast⟩
  · exact hwell.marked _
  · rw [hlast, beq_self_eq_true]
    exact wellFormed_everything

theorem wellFormed_of_mem_ofTexts {pending : Bool} {texts : List (List Char)} {segment : Segment}
    (h : segment ∈ ofTexts pending texts) : segment.WellFormed false ∨ segment = everything := by
  obtain ⟨i, hi⟩ := List.mem_iff_getElem?.1 h
  exact ((parsed_ofTexts pending texts).wellFormed_or_everything hi).imp_right And.left

end Segment

end PathQuery
