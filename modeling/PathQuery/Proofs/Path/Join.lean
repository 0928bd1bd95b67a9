import PathQuery.Path.Segment
import PathQuery.Proofs.Path.Quote

/-!
# Paths behind one another

Two paths with a slash between them have the segments of the first and then those of the second
(`ofTexts_join`). There are two exceptions: the first path may end with a backslash, which takes
its meaning from the slash (`Path.endsOpen`), or with a `**` that waits for its segment and gets the
first one of the second path (`Segment.EndsPending`).
-/

namespace PathQuery

namespace Path

/-! ## Texts -/

/-- Whether a text ends with a backslash that waits for its character. -/
def endsOpen : List Char → Bool
  | [] => false
  | ['\\'] => true
  | '\\' :: _ :: rest => endsOpen rest
  | _ :: rest => endsOpen rest

/-- A text is read unit by unit: a character, or a backslash with the character behind it. -/
inductive Units : List Char → Prop
  | nil : Units []
  | plain {c : Char} {rest : List Char} : c ≠ '\\' → Units rest → Units (c :: rest)
  | escape (c : Char) {rest : List Char} : Units rest → Units ('\\' :: c :: rest)

theorem endsOpen_cons_of_ne {c : Char} (h : c ≠ '\\') (rest : List Char) :
    endsOpen (c :: rest) = endsOpen rest := by
  rw [endsOpen]
  · intro heq _
    exact h heq
  · intro _ _ heq _
    exact h heq

theorem Units.endsOpen_append {text : List Char} (h : Units text) (rest : List Char) :
    endsOpen (text ++ rest) = endsOpen rest := by
  induction h with
  | nil => rfl
  | plain hne _ ih => rw [List.cons_append, endsOpen_cons_of_ne hne, ih]
  | escape c _ ih => rw [List.cons_append, List.cons_append, endsOpen, ih]

theorem Units.endsOpen {text : List Char} (h : Units text) : endsOpen text = false := by
  rw [← List.append_nil text, h.endsOpen_append, Path.endsOpen]

theorem units_of_endsOpen {text : List Char} (h : endsOpen text = false) : Units text := by
  fun_induction endsOpen text with
  | case1 => exact .nil
  | case2 => cases h
  | case3 c rest ih => exact .escape c (ih h)
  | case4 c rest hend hescape ih =>
    refine .plain ?_ (ih h)
    rintro rfl
    cases rest with
    | nil => exact hend rfl rfl
    | cons d tail => exact hescape d tail rfl rfl

theorem Units.append {text rest : List Char} (h : Units text) (hrest : Units rest) :
    Units (text ++ rest) := by
  induction h with
  | nil => exact hrest
  | plain hne _ ih => exact .plain hne ih
  | escape c _ ih => exact .escape c ih

/-- A part of a path other than a bare slash, and what it adds to the text that it stands in. -/
inductive Part : List Char → List Char → Prop
  | plain {c : Char} : c ≠ '/' → c ≠ '\\' → Part [c] [c]
  | slash : Part ['\\', '/'] ['/']
  | escape {c : Char} : c ≠ '/' → Part ['\\', c] ['\\', c]

theorem Part.ne_nil {part read : List Char} (h : Part part read) : part ≠ [] ∧ read ≠ [] := by
  cases h <;> exact ⟨List.cons_ne_nil _ _, List.cons_ne_nil _ _⟩

theorem Part.segmentTexts_append {part read : List Char} (h : Part part read)
    (rest : List Char) :
    segmentTexts (part ++ rest) = read.foldr consHead (segmentTexts rest) := by
  cases h with
  | plain hslash hne => exact segmentTexts_cons_of_ne hslash hne rest
  | slash => rfl
  | escape hslash => exact segmentTexts_backslash_cons hslash rest

/-- A path is read piece by piece: a slash, or characters of the text that comes next. -/
inductive Pieces : List Char → Prop
  | nil : Pieces []
  | slash {rest : List Char} : Pieces rest → Pieces ('/' :: rest)
  | chunk {path rest chars : List Char} : chars ≠ [] →
      (∀ more, segmentTexts (path ++ more) = chars.foldr consHead (segmentTexts (rest ++ more))) →
      Pieces rest → Pieces path

theorem Part.pieces {part read rest : List Char} (h : Part part read) (hrest : Pieces rest) :
    Pieces (part ++ rest) := by
  refine .chunk h.ne_nil.2 (fun more => ?_) hrest
  rw [List.append_assoc, h.segmentTexts_append]

theorem Units.pieces {path : List Char} (h : Units path) : Pieces path := by
  induction h with
  | nil => exact .nil
  | @escape c rest _ ih =>
    by_cases hc : c = '/'
    · rw [hc]
      exact Part.slash.pieces ih
    · exact (Part.escape hc).pieces ih
  | @plain c rest hne _ ih =>
    by_cases hc : c = '/'
    · rw [hc]
      exact .slash ih
    · exact (Part.plain hc hne).pieces ih

theorem segmentTexts_ne_nil {path : List Char} (h : path ≠ []) : segmentTexts path ≠ [] := by
  have hcons : ∀ c texts, consHead c texts ≠ [] := by
    intro c texts
    cases texts <;> exact List.cons_ne_nil _ _
  fun_cases segmentTexts path with
  | case1 => exact absurd rfl h
  | case2 => exact List.cons_ne_nil _ _
  | case3 => exact hcons _ _
  | case4 => exact hcons _ _
  | case5 => exact hcons _ _

theorem foldr_consHead_append {texts : List (List Char)} (h : texts ≠ []) (chars : List Char)
    (more : List (List Char)) :
    chars.foldr consHead (texts ++ more) = chars.foldr consHead texts ++ more := by
  obtain ⟨text, rest, rfl⟩ := List.exists_cons_of_ne_nil h
  rw [List.cons_append, foldr_consHead_cons, foldr_consHead_cons, List.cons_append]

/-- A slash ends the texts before it. -/
theorem segmentTexts_append_slash {path : List Char} (h : Pieces path) (more : List Char) :
    segmentTexts (path ++ '/' :: more) = segmentTexts (path ++ ['/']) ++ segmentTexts more := by
  induction h with
  | nil => rfl
  | slash _ ih =>
    rw [List.cons_append, List.cons_append, segmentTexts, segmentTexts, ih, List.cons_append]
  | @chunk path rest chars _ hread _ ih =>
    have hne : rest ++ ['/'] ≠ [] := List.append_ne_nil_of_right_ne_nil _ (List.cons_ne_nil _ _)
    rw [hread, hread, ih, foldr_consHead_append (segmentTexts_ne_nil hne)]

/-- A slash at the end of a path starts no text, or an empty one behind another slash. -/
theorem segmentTexts_slash {path : List Char} (h : Pieces path) :
    segmentTexts (path ++ ['/']) = segmentTexts path ∨
      segmentTexts (path ++ ['/']) = segmentTexts path ++ [[]] := by
  induction h with
  | nil => exact .inr rfl
  | slash _ ih =>
    rw [List.cons_append, segmentTexts, segmentTexts, List.cons_append]
    exact ih.imp (congrArg _) (congrArg _)
  | @chunk path rest chars hchars hread _ ih =>
    have hpath := hread []
    rw [List.append_nil, List.append_nil] at hpath
    rw [hread, hpath]
    rcases ih with ih | ih
    · exact .inl (congrArg (chars.foldr consHead) ih)
    · rw [ih]
      by_cases hrest : segmentTexts rest = []
      · left
        rw [hrest, foldr_consHead_nil hchars, List.nil_append, foldr_consHead_cons,
          List.append_nil]
      · exact .inr (foldr_consHead_append hrest chars _)

end Path

namespace Segment

open PathQuery.Path

/-! ## Segments -/

/-- The path ends with a `**` that no segment follows: one of its segments is the one for
everything that such a `**` stands for. -/
def EndsPending (path : List Char) : Prop :=
  ∃ segment ∈ ofPath path, segment.key = some (.pattern .any)

/-- A text adds at most one segment, whatever texts come behind it. -/
theorem ofTexts_cons (pending : Bool) (text : List Char) :
    ∃ (head : Option Segment) (next : Bool),
      ∀ rest, ofTexts pending (text :: rest) = head.toList ++ ofTexts next rest := by
  by_cases hempty : text = []
  · exact ⟨none, pending, fun _ => by rw [hempty]; rfl⟩
  by_cases hdot : text = ['.']
  · exact ⟨none, pending, fun _ => by rw [hdot]; rfl⟩
  by_cases hstars : text = ['*', '*']
  · exact ⟨none, true, fun _ => by rw [hstars]; rfl⟩
  rcases hsplit : splitValue text with ⟨key, value⟩
  have hread : ∀ rest, ofTexts pending (text :: rest) = _ := fun rest => by
    rw [ofTexts, hsplit]
    · exact hempty
    · exact hdot
    · exact hstars
  by_cases hup : key = ['.', '.']
  · subst hup
    simp only [hread]
    cases pending with
    | false => exact ⟨some _, false, fun _ => rfl⟩
    | true =>
      cases (value.filter (· ≠ [])).map textToken with
      | none => exact ⟨none, true, fun _ => rfl⟩
      | some token => exact ⟨some _, false, fun _ => rfl⟩
  by_cases hall : key = ['*', '*']
  · subst hall
    simp only [hread]
    exact ⟨some _, false, fun _ => rfl⟩
  by_cases hnone : key = []
  · subst hnone
    simp only [hread]
    exact ⟨some _, false, fun _ => rfl⟩
  exact ⟨some _, false, ofTexts_cons_of_splitValue hsplit hempty hdot hstars hnone hup hall pending⟩

/-- Texts behind one another, the first of which leave no `**` waiting. -/
theorem ofTexts_append {pending : Bool} {texts : List (List Char)}
    (h : ∀ segment ∈ ofTexts pending texts, segment.key ≠ some (.pattern .any))
    (more : List (List Char)) :
    ofTexts pending (texts ++ more) = ofTexts pending texts ++ ofTexts false more := by
  induction texts generalizing pending with
  | nil =>
    cases pending with
    | true => exact absurd rfl (h _ List.mem_cons_self)
    | false => rfl
  | cons text texts ih =>
    obtain ⟨head, next, hread⟩ := ofTexts_cons pending text
    rw [hread] at h
    rw [List.cons_append, hread, hread, List.append_assoc,
      ih fun segment hmem => h segment (List.mem_append_right _ hmem)]

theorem map_key_markLast (segments : List Segment) :
    (markLast segments).map Segment.key = segments.map Segment.key := by
  induction segments with
  | nil => rfl
  | cons segment rest ih =>
    cases rest with
    | nil => rfl
    | cons next rest =>
      rw [markLast, List.map_cons, List.map_cons, ih]
      exact nofun

/-- The segments of a path have the keys of the segments that its texts stand for. -/
theorem forall_key_ofPath_iff {path : List Char} {motive : Option Token → Prop} :
    (∀ segment ∈ ofPath path, motive segment.key) ↔
      ∀ segment ∈ ofTexts false (segmentTexts path), motive segment.key := by
  rw [ofPath, ← List.forall_mem_map (f := Segment.key) (P := motive), map_key_markLast,
    List.forall_mem_map]

/-- Two paths with a slash between them have the segments of both, one behind the other. -/
theorem ofTexts_join {path : List Char} (hopen : endsOpen path = false)
    (hpending : ¬EndsPending path) (more : List Char) :
    ofTexts false (segmentTexts (path ++ '/' :: more)) =
      ofTexts false (segmentTexts path) ++ ofTexts false (segmentTexts more) := by
  have hpieces := (units_of_endsOpen hopen).pieces
  have hkeys : ∀ segment ∈ ofTexts false (segmentTexts path),
      segment.key ≠ some (.pattern .any) :=
    (@forall_key_ofPath_iff path (· ≠ some (.pattern .any))).1
      fun segment hmem hkey => hpending ⟨segment, hmem, hkey⟩
  rw [segmentTexts_append_slash hpieces]
  rcases segmentTexts_slash hpieces with h | h
  · rw [h, ofTexts_append hkeys]
  · rw [h, List.append_assoc, ofTexts_append hkeys]
    rfl

end Segment

end PathQuery
