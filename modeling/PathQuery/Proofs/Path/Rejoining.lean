import PathQuery.Proofs.Path.Spelling

/-!
# Paths from their texts

A path is read part by part (`Reading`): a bare slash ends a text, and every other part goes into
the text that it stands in, as it is but for the backslash before a slash. So writing the texts with
that backslash again (`respell`) and slashes between them gives the path back, without a bare slash
at its end, which starts no text (`joinTexts_segmentTexts`). Only the last text can end with a
backslash that waits for its character, since it would take the meaning from a slash behind it.
-/

namespace PathQuery.Path

/-! ## Reading -/

/-- A path and its texts. Only at the end of a path a backslash stands alone. -/
inductive Reading : List Char → List (List Char) → Prop
  | nil : Reading [] []
  | backslash : Reading ['\\'] [['\\']]
  | slash {rest : List Char} {texts : List (List Char)} :
      Reading rest texts → Reading ('/' :: rest) ([] :: texts)
  | part {part read rest : List Char} {texts : List (List Char)} :
      Part part read → Reading rest texts → Reading (part ++ rest) (read.foldr consHead texts)

theorem reading_segmentTexts (path : List Char) : Reading path (segmentTexts path) := by
  fun_induction segmentTexts path with
  | case1 => exact .nil
  | case2 rest ih => exact .slash ih
  | case3 rest ih => exact .part .slash ih
  | case4 c rest hslash ih => exact .part (.escape hslash) ih
  | case5 c rest hslash _ hescape ih =>
    by_cases hc : c = '\\'
    · -- a backslash that is read as a character ends the path
      subst hc
      cases rest with
      | nil => exact .backslash
      | cons d rest => exact (hescape d rest rfl rfl).elim
    · exact .part (.plain hslash hc) ih

theorem Part.units {part read : List Char} (h : Part part read) : Units part := by
  cases h with
  | plain _ hne => exact .plain hne .nil
  | slash => exact .escape '/' .nil
  | @escape c _ => exact .escape c .nil

theorem Part.whole {part read : List Char} (h : Part part read) : Whole read := by
  cases h with
  | plain _ hne =>
    refine ⟨.plain hne .nil, ?_⟩
    rw [escaped_cons_of_ne hne]
    exact List.not_mem_nil
  | slash => exact ⟨.plain (by decide) .nil, by decide⟩
  | @escape c hslash => exact ⟨.escape c .nil, fun hmem => hslash (List.mem_singleton.1 hmem).symm⟩

section Reading

variable {path : List Char} {texts : List (List Char)}

theorem Reading.eq_nil_iff (h : Reading path texts) : texts = [] ↔ path = [] := by
  cases h with
  | nil => exact iff_of_true rfl rfl
  | backslash => exact iff_of_false (List.cons_ne_nil _ _) (List.cons_ne_nil _ _)
  | slash => exact iff_of_false (List.cons_ne_nil _ _) (List.cons_ne_nil _ _)
  | @part part read rest texts hpart _ =>
    refine iff_of_false ?_ (List.append_ne_nil_of_left_ne_nil hpart.ne_nil.1 _)
    cases texts with
    | nil =>
      rw [foldr_consHead_nil hpart.ne_nil.2]
      exact List.cons_ne_nil _ _
    | cons text texts =>
      rw [foldr_consHead_cons]
      exact List.cons_ne_nil _ _

/-- No slash of a text is behind a backslash that takes its meaning. -/
theorem Reading.slashes (h : Reading path texts) : ∀ text ∈ texts, '/' ∉ escaped text := by
  induction h with
  | nil => exact List.forall_mem_nil _
  | backslash => exact List.forall_mem_singleton.2 List.not_mem_nil
  | slash _ ih => exact List.forall_mem_cons.2 ⟨List.not_mem_nil, ih⟩
  | @part part read rest texts hpart _ ih =>
    obtain ⟨hunits, hslashes⟩ := hpart.whole
    cases texts with
    | nil =>
      rw [foldr_consHead_nil hpart.ne_nil.2]
      exact List.forall_mem_singleton.2 hslashes
    | cons text texts =>
      obtain ⟨htext, hrest⟩ := List.forall_mem_cons.1 ih
      rw [foldr_consHead_cons, List.forall_mem_cons, escaped_append hunits, List.mem_append, not_or]
      exact ⟨⟨hslashes, htext⟩, hrest⟩

/-- All texts but the last are read to their ends. -/
theorem Reading.units (h : Reading path texts) : ∀ text ∈ texts.dropLast, Units text := by
  induction h with
  | nil => exact List.forall_mem_nil _
  | backslash => exact List.forall_mem_nil _
  | @slash rest texts _ ih =>
    cases texts with
    | nil => exact List.forall_mem_nil _
    | cons next texts => exact List.forall_mem_cons.2 ⟨.nil, ih⟩
  | @part part read rest texts hpart _ ih =>
    cases texts with
    | nil =>
      rw [foldr_consHead_nil hpart.ne_nil.2]
      exact List.forall_mem_nil _
    | cons text texts =>
      rw [foldr_consHead_cons]
      cases texts with
      | nil => exact List.forall_mem_nil _
      | cons next texts =>
        obtain ⟨htext, hrest⟩ := List.forall_mem_cons.1 ih
        exact List.forall_mem_cons.2 ⟨hpart.whole.units.append htext, hrest⟩

end Reading

/-! ## Writing -/

/-- A text as a path holds it, with a backslash before each slash that has none. -/
def respell : List Char → List Char
  | [] => []
  | '/' :: rest => '\\' :: '/' :: respell rest
  | '\\' :: c :: rest => '\\' :: c :: respell rest
  | c :: rest => c :: respell rest

/-- Texts as a path holds them, with slashes between them. -/
def joinTexts (texts : List (List Char)) : List Char :=
  List.intercalate ['/'] (texts.map respell)

/-- Whether a path ends with a slash that no backslash takes the meaning from. -/
def endsBare (path : List Char) : Bool := path.getLast? == some '/' && !endsOpen path.dropLast

theorem joinTexts_singleton (text : List Char) : joinTexts [text] = respell text :=
  List.intercalate_singleton

theorem joinTexts_cons {texts : List (List Char)} (h : texts ≠ []) (text : List Char) :
    joinTexts (text :: texts) = respell text ++ '/' :: joinTexts texts := by
  obtain ⟨next, rest, rfl⟩ := List.exists_cons_of_ne_nil h
  unfold joinTexts
  rw [List.map_cons, List.map_cons, List.intercalate_cons_cons, List.append_assoc,
    List.singleton_append]

theorem Part.respell_append {part read : List Char} (h : Part part read) (text : List Char) :
    respell (read ++ text) = part ++ respell text := by
  cases h with
  | plain hslash hne =>
    rw [List.singleton_append, List.singleton_append, respell]
    · exact hslash
    · exact fun _ _ heq _ => hne heq
  | slash => rfl
  | escape => rfl

/-- A part is written as it was read. -/
theorem Part.joinTexts_foldr {part read : List Char} (h : Part part read)
    (texts : List (List Char)) :
    joinTexts (read.foldr consHead texts) = part ++ joinTexts texts := by
  cases texts with
  | nil =>
    have hread := h.respell_append []
    rw [List.append_nil] at hread
    rw [foldr_consHead_nil h.ne_nil.2, joinTexts_singleton, hread]
    rfl
  | cons text texts =>
    rw [foldr_consHead_cons]
    by_cases htexts : texts = []
    · rw [htexts, joinTexts_singleton, joinTexts_singleton, h.respell_append]
    · rw [joinTexts_cons htexts, joinTexts_cons htexts, h.respell_append, List.append_assoc]

/-! ## The end of a path -/

theorem endsBare_slash_cons {rest : List Char} (h : rest ≠ []) :
    endsBare ('/' :: rest) = endsBare rest := by
  rw [endsBare, List.getLast?_cons_of_ne_nil h, List.dropLast_cons_of_ne_nil h,
    endsOpen_cons_of_ne (by decide), endsBare]

/-- How a path ends is a matter of what comes behind a part of it. -/
theorem Part.endsBare_append {part read : List Char} (h : Part part read) (rest : List Char) :
    endsBare (part ++ rest) = endsBare rest := by
  by_cases hrest : rest = []
  · rw [hrest, List.append_nil]
    cases h with
    | plain hslash _ => simp [endsBare, hslash]
    | slash => rfl
    | escape hslash => simp [endsBare, hslash]
  · rw [endsBare, List.getLast?_append_of_ne_nil _ hrest, List.dropLast_append_of_ne_nil hrest,
      h.units.endsOpen_append, endsBare]

/-- The texts give back all of the path that they were read from but a bare slash at its end. -/
theorem Reading.joinTexts_append {path : List Char} {texts : List (List Char)}
    (h : Reading path texts) :
    joinTexts texts ++ (if endsBare path then ['/'] else []) = path := by
  induction h with
  | nil => rfl
  | backslash => rfl
  | @slash rest texts hrest ih =>
    by_cases hend : rest = []
    · -- this is the bare slash at the end, behind which no text begins
      rw [hend, hrest.eq_nil_iff.2 hend]
      rfl
    · rw [joinTexts_cons (mt hrest.eq_nil_iff.1 hend), endsBare_slash_cons hend]
      exact congrArg ('/' :: ·) ih
  | part hpart _ ih =>
    rw [hpart.joinTexts_foldr, hpart.endsBare_append, List.append_assoc, ih]

/-- **The texts of a path lose nothing.** With a backslash before each bare slash and slashes
between them they are the path again, without the slash at its end if that is bare. No text but the
last ends with a backslash that waits for its character, and in none a slash is behind a backslash,
so that nothing was written twice. -/
theorem joinTexts_segmentTexts (path : List Char) :
    joinTexts (segmentTexts path) = (if endsBare path then path.dropLast else path) ∧
      (∀ text ∈ (segmentTexts path).dropLast, endsOpen text = false) ∧
      ∀ text ∈ segmentTexts path, '/' ∉ escaped text := by
  have hread := reading_segmentTexts path
  have hjoin := hread.joinTexts_append
  refine ⟨?_, fun text hmem => (hread.units text hmem).endsOpen, hread.slashes⟩
  by_cases hbare : endsBare path = true
  · rw [if_pos hbare] at hjoin ⊢
    have hdrop := congrArg List.dropLast hjoin
    rwa [List.dropLast_concat] at hdrop
  · rw [if_neg hbare] at hjoin ⊢
    rwa [List.append_nil] at hjoin

/-- A path with every kind of part, a lone backslash at its end, and one with a bare slash there
behind another slash that is not bare. -/
theorem joinTexts_segmentTexts_parts :
    segmentTexts "\\\\/\\/a\\=b//x\\".toList =
        ["\\\\".toList, "/a\\=b".toList, [], "x\\".toList] ∧
      joinTexts ["\\\\".toList, "/a\\=b".toList, [], "x\\".toList] =
        "\\\\/\\/a\\=b//x\\".toList ∧
      segmentTexts "a\\//".toList = ["a/".toList] ∧ joinTexts ["a/".toList] = "a\\/".toList ∧
      "\\\\".toList ∈ ["\\\\".toList, "/a\\=b".toList, []] ∧ endsOpen "\\\\".toList = false ∧
      "/a\\=b".toList ∈ ["\\\\".toList, "/a\\=b".toList, [], "x\\".toList] ∧
      '/' ∉ escaped "/a\\=b".toList := by
  have htexts : segmentTexts "\\\\/\\/a\\=b//x\\".toList =
      ["\\\\".toList, "/a\\=b".toList, [], "x\\".toList] := rfl
  have hfirst : "\\\\".toList ∈ ["\\\\".toList, "/a\\=b".toList, []] := List.mem_cons_self
  have hsecond : "/a\\=b".toList ∈ ["\\\\".toList, "/a\\=b".toList, [], "x\\".toList] :=
    List.mem_cons_of_mem _ List.mem_cons_self
  have hread := joinTexts_segmentTexts "\\\\/\\/a\\=b//x\\".toList
  rw [htexts] at hread
  obtain ⟨hjoin, hclosed, hslashes⟩ := hread
  exact ⟨htexts, hjoin, rfl, (joinTexts_segmentTexts "a\\//".toList).1, hfirst, hclosed _ hfirst,
    hsecond, hslashes _ hsecond⟩

end PathQuery.Path
