import PathQuery.Proofs.Pattern.Captures
import PathQuery.Proofs.Pattern.Slots

/-!
# Greedy captures

The ways in which the expression of some slots matches are the ways in which captures fill the
slots (`fills_of_mem_ways`, `exists_mem_ways_of_fills`), listed from the greediest on
(`pairwise_ways`). The first one that covers the whole text is the one that is reported, so the
captures of a token without brackets and bars are the greediest that fill its slots
(`greediest_of_find?`, `captures?_greediest`).
-/

namespace PathQuery

open Regex

namespace Regex

/-! ## Texts that groups hold -/

/-- The lengths of what groups captured. -/
def lengths (text : List Char) (captured : Captured) : List Nat :=
  (texts text captured).map List.length

@[simp] theorem texts_cons (text : List Char) (span : Span) (captured : Captured) :
    texts text (some span :: captured) = span.slice text :: texts text captured := rfl

@[simp] theorem lengths_cons (text : List Char) (span : Span) (captured : Captured) :
    lengths text (some span :: captured) = (span.slice text).length :: lengths text captured := rfl

theorem slice_of_drop_eq {text s rest : List Char} {i : Nat} (h : text.drop i = s ++ rest) :
    (Span.mk i (i + s.length)).slice text = s := by
  simp [Span.slice, h]

theorem captures?_whole (body : Regex) (mode : Mode) (text : List Char) :
    (whole body).captures? mode text =
      ((ways mode (text.map mode.canon) body 0).find? fun way => way.2 == text.length).map
        fun way => texts text way.1 := by
  rw [captures?, search?_whole, Option.map_map]
  rfl

/-- The greatest number of characters comes first. -/
theorem pairwise_strides (p : Char → Bool) (text : List Char) :
    (strides p text).Pairwise (· > ·) := by
  induction text with
  | nil => exact List.pairwise_singleton _ _
  | cons c text ih =>
    rw [strides]
    split
    · simp only [List.pairwise_append, List.pairwise_map, List.mem_map, List.mem_singleton]
      refine ⟨ih.imp fun h => by omega, List.pairwise_singleton _ _, ?_⟩
      rintro _ ⟨n, -, rfl⟩ _ rfl
      omega
    · exact List.pairwise_singleton _ _

end Regex

namespace Glob

/-! ## Where groups stop -/

section Stops

variable (mode : Mode) (text : List Char) (wildcard : Wildcard) (i : Nat)

theorem ways_group : ways mode text (Slot.group wildcard).expression i =
    (stops mode text wildcard.expression i).map fun stop => ([some ⟨i, stop⟩], stop) := by
  cases wildcard with
  | one =>
    simp only [Slot.expression, Wildcard.expression, stops, ways]
    split <;> rfl
  | run =>
    simp only [Slot.expression, Wildcard.expression, stops, ways, List.map_map]
    rfl

/-- A group stops as late as possible first. -/
theorem pairwise_stops : (stops mode text wildcard.expression i).Pairwise (· > ·) := by
  cases wildcard with
  | one =>
    simp only [Wildcard.expression, stops, ways]
    split <;> simp
  | run =>
    simp only [Wildcard.expression, stops, ways, List.map_map, List.pairwise_map]
    exact (pairwise_strides _ _).imp fun h => Nat.add_lt_add_left h i

end Stops

variable {flags : Flags} {text : List Char}

/-- A group stops behind the texts that it can hold. -/
theorem mem_stops_wildcard_iff {wildcard : Wildcard} {i stop : Nat} :
    stop ∈ stops flags.mode (text.map flags.mode.canon) wildcard.expression i ↔
      ∃ s, wildcard.Admits flags s ∧ ∃ rest, text.drop i = s ++ rest ∧ stop = i + s.length := by
  have hadmits : ∀ s, s ∈ wildcard.expression.language flags.mode ↔ wildcard.Admits flags s := by
    intro s
    cases wildcard with
    | one => exact and_congr_right fun _ => forall₂_congr fun _ _ => Flags.covers_iff.symm
    | run => exact forall₂_congr fun _ _ => Flags.covers_iff.symm
  have hinner : wildcard.expression.Inner := by
    cases wildcard <;> trivial
  simp only [mem_stops_iff hinner, hadmits]

/-! ## The ways of slots -/

/-- The ways in which the expressions of slots match one after the other. -/
abbrev waysOf (flags : Flags) (text : List Char) (slots : List Slot) (i : Nat) :
    List (Captured × Nat) :=
  ways flags.mode (text.map flags.mode.canon) (sequence (slots.map Slot.expression)) i

theorem waysOf_text (c : Char) (slots : List Slot) (i : Nat) :
    waysOf flags text (.text c :: slots) i =
      if text[i]?.any (flags.Alike c ·) then waysOf flags text slots (i + 1) else [] := by
  have hhere : ((text.map flags.mode.canon)[i]?.any fun d => d == flags.mode.canon c) =
      text[i]?.any (flags.Alike c ·) := by
    rw [List.getElem?_map, Option.any_map]
    congr 1
    funext d
    simp [Flags.alike_iff, beq_eq_decide]
  rw [waysOf, List.map_cons, ways_sequence_cons, Slot.expression, ways, hhere]
  split <;> simp

theorem waysOf_group (wildcard : Wildcard) (slots : List Slot) (i : Nat) :
    waysOf flags text (.group wildcard :: slots) i =
      (stops flags.mode (text.map flags.mode.canon) wildcard.expression i).flatMap fun stop =>
        (waysOf flags text slots stop).map fun way => (some ⟨i, stop⟩ :: way.1, way.2) := by
  rw [waysOf, List.map_cons, ways_sequence_cons, ways_group, List.flatMap_map]
  rfl

/-- In every way the captures fill the slots of the text up to where the way ends. -/
theorem fills_of_mem_ways {slots : List Slot} {i : Nat} {way : Captured × Nat}
    (h : way ∈ waysOf flags text slots i) :
    ∃ s rest, text.drop i = s ++ rest ∧ way.2 = i + s.length ∧
      Fills flags slots (texts text way.1) s := by
  induction slots generalizing i way with
  | nil =>
    rw [List.mem_singleton.1 h]
    exact ⟨[], _, rfl, rfl, .nil⟩
  | cons slot slots ih =>
    cases slot with
    | text c =>
      rw [waysOf_text] at h
      split at h
      · rename_i hhere
        obtain ⟨d, after, hdrop, hd⟩ := any_getElem?_iff.1 hhere
        obtain ⟨s, rest, hrest, hstop, hfills⟩ := ih h
        rw [(drop_eq_cons_iff.1 hdrop).2] at hrest
        refine ⟨d :: s, rest, ?_, ?_, .text (of_decide_eq_true hd) hfills⟩
        · rw [hdrop, hrest, List.cons_append]
        · rw [hstop, List.length_cons]
          omega
      · cases h
    | group wildcard =>
      rw [waysOf_group] at h
      obtain ⟨stop, hstop, h⟩ := List.mem_flatMap.1 h
      obtain ⟨later, hlater, rfl⟩ := List.mem_map.1 h
      obtain ⟨s, hs, after, hdrop, rfl⟩ := mem_stops_wildcard_iff.1 hstop
      obtain ⟨t, rest, hrest, hend, hfills⟩ := ih hlater
      rw [← List.drop_drop, hdrop, List.drop_left] at hrest
      refine ⟨s ++ t, rest, ?_, ?_, ?_⟩
      · rw [hdrop, hrest, List.append_assoc]
      · rw [hend, List.length_append]
        omega
      · rw [texts_cons, slice_of_drop_eq hdrop]
        exact .group hs hfills

/-- Captures that fill the slots are those of some way. -/
theorem exists_mem_ways_of_fills {slots : List Slot} {captures : List (List Char)}
    {s rest : List Char} (h : Fills flags slots captures s) {i : Nat}
    (hdrop : text.drop i = s ++ rest) :
    ∃ way ∈ waysOf flags text slots i, way.2 = i + s.length ∧ texts text way.1 = captures := by
  induction h generalizing i with
  | nil => exact ⟨([], i), List.mem_singleton_self _, rfl, rfl⟩
  | @text c d slots captures s halike _ ih =>
    obtain ⟨way, hway, hstop, htexts⟩ := ih (drop_eq_cons_iff.1 hdrop).2
    refine ⟨way, ?_, ?_, htexts⟩
    · rw [waysOf_text, if_pos (any_getElem?_iff.2 ⟨d, _, hdrop, decide_eq_true halike⟩)]
      exact hway
    · rw [hstop, List.length_cons]
      omega
  | @group wildcard slots captures capture s hcapture _ ih =>
    rw [List.append_assoc] at hdrop
    have hafter : text.drop (i + capture.length) = s ++ rest := by
      rw [← List.drop_drop, hdrop, List.drop_left]
    obtain ⟨way, hway, hstop, htexts⟩ := ih hafter
    refine ⟨(some ⟨i, i + capture.length⟩ :: way.1, way.2), ?_, ?_, ?_⟩
    · rw [waysOf_group, List.mem_flatMap]
      exact ⟨_, mem_stops_wildcard_iff.2 ⟨capture, hcapture, _, hdrop, rfl⟩,
        List.mem_map_of_mem hway⟩
    · rw [hstop, List.length_append]
      omega
    · rw [texts_cons, slice_of_drop_eq hdrop, htexts]

/-- The greediest way comes first. -/
theorem pairwise_ways (slots : List Slot) (i : Nat) :
    (waysOf flags text slots i).Pairwise fun a b => lengths text b.1 < lengths text a.1 := by
  induction slots generalizing i with
  | nil => exact List.pairwise_singleton _ _
  | cons slot slots ih =>
    cases slot with
    | text c =>
      rw [waysOf_text]
      split
      · exact ih (i + 1)
      · exact .nil
    | group wildcard =>
      rw [waysOf_group, List.pairwise_flatMap]
      constructor
      · intro stop _
        rw [List.pairwise_map]
        exact (ih stop).imp fun h => List.cons_lt_cons_iff.2 (.inr ⟨rfl, h⟩)
      · refine (pairwise_stops _ _ wildcard i).imp_of_mem ?_
        intro stop stop' hstop hstop' hlt x hx y hy
        obtain ⟨way, -, rfl⟩ := List.mem_map.1 hx
        obtain ⟨way', -, rfl⟩ := List.mem_map.1 hy
        obtain ⟨s, -, rest, hdrop, rfl⟩ := mem_stops_wildcard_iff.1 hstop
        obtain ⟨s', -, rest', hdrop', rfl⟩ := mem_stops_wildcard_iff.1 hstop'
        rw [lengths_cons, lengths_cons, slice_of_drop_eq hdrop, slice_of_drop_eq hdrop',
          List.cons_lt_cons_iff]
        left
        omega

/-! ## Captures -/

/-- A search for the first way that covers the text finds the greediest one. -/
theorem greediest_of_find? {slots : List Slot} {way : Captured × Nat}
    (h : (waysOf flags text slots 0).find? (fun way => way.2 == text.length) = some way) :
    Greediest flags slots (texts text way.1) text := by
  obtain ⟨hwhole, before, after, hways, hbefore⟩ := List.find?_eq_some_iff_append.1 h
  refine ⟨?_, fun other hother => ?_⟩
  · obtain ⟨s, rest, hdrop, hstop, hfills⟩ := fills_of_mem_ways (List.mem_of_find?_eq_some h)
    rw [List.drop_zero] at hdrop
    have hlength : text.length = s.length + rest.length := by
      rw [hdrop, List.length_append]
    have hall := beq_iff_eq.1 hwhole
    have hrest : rest = [] := List.eq_nil_of_length_eq_zero (by omega)
    have hs : text = s := by
      rw [hdrop, hrest, List.append_nil]
    rw [← hs] at hfills
    exact hfills
  · have hdrop : text.drop 0 = text ++ [] := by
      rw [List.drop_zero, List.append_nil]
    obtain ⟨way', hmem, hwhole', rfl⟩ := exists_mem_ways_of_fills hother hdrop
    have hpairwise := @pairwise_ways flags text slots 0
    rw [hways, List.mem_append, List.mem_cons] at hmem
    rw [hways, List.pairwise_append, List.pairwise_cons] at hpairwise
    rcases hmem with hmem | rfl | hmem
    · have hearlier := hbefore way' hmem
      rw [hwhole', Nat.zero_add] at hearlier
      simp at hearlier
    · exact .inl rfl
    · exact .inr (hpairwise.2.1.1 way' hmem)

/-- The expression of some slots matches the texts that fill them. -/
theorem isSome_captures?_whole_slots_iff {slots : List Slot} :
    ((whole (sequence (slots.map Slot.expression))).captures? flags.mode text).isSome ↔
      ∃ captures, Fills flags slots captures text := by
  rw [captures?_whole, Option.isSome_map]
  constructor
  · intro h
    obtain ⟨way, hway⟩ := Option.isSome_iff_exists.1 h
    exact ⟨_, (greediest_of_find? hway).fills⟩
  · rintro ⟨captures, hfills⟩
    have hdrop : text.drop 0 = text ++ [] := by
      rw [List.drop_zero, List.append_nil]
    obtain ⟨way, hmem, hwhole, -⟩ := exists_mem_ways_of_fills hfills hdrop
    rw [List.find?_isSome]
    exact ⟨way, hmem, beq_iff_eq.2 (by omega)⟩

/-- It captures the greediest texts that fill the slots. -/
theorem greediest_of_captures?_whole_slots {slots : List Slot} {captures : List (List Char)}
    (h : (whole (sequence (slots.map Slot.expression))).captures? flags.mode text =
      some captures) : Greediest flags slots captures text := by
  rw [captures?_whole] at h
  obtain ⟨way, hway, rfl⟩ := Option.map_eq_some_iff.1 h
  exact greediest_of_find? hway

end Glob

namespace Pattern

/-- **Captures give the text back.** For a token without brackets and bars, the expression accepts
a key or a leaf exactly if some captures, put in the place of the token's groups, give its text.
Those that it reports do. They hold no line end unless the flags have it so, and of all captures
that give the text they are the greediest. -/
theorem captures?_greediest [Engine] {token : String} {flags : Option Flags} {e : Expression}
    {f : Flags} (h : ofText token flags = .ok (regex e f))
    (hflat : ∀ m ∈ Glob.symbols token.toList, m ∉ [Glob.Symbol.opening, .closing, .bar])
    {subject : Subject} {s : String} (hsubject : subject.text? = some s) :
    (((regex e f).captures? subject).isSome ↔
        ∃ captures, Glob.Fills (flags.getD .empty) (Glob.slots (Glob.symbols token.toList))
          captures s.toList) ∧
      ∀ captures, (regex e f).captures? subject = some captures →
        Glob.Fills (flags.getD .empty) (Glob.slots (Glob.symbols token.toList))
            (captures.map String.toList) s.toList ∧
          ((flags.getD .empty).multiline = true ∨
            ∀ capture ∈ captures, '\n' ∉ capture.toList) ∧
          ∀ other, Glob.Fills (flags.getD .empty) (Glob.slots (Glob.symbols token.toList)) other
              s.toList →
            other = captures.map String.toList ∨
              other.map List.length < (captures.map String.toList).map List.length := by
  obtain ⟨r, hread, rfl, rfl⟩ := regex_of_ofText h
  have he := (assemble_of_ofLexemes hread).symm.trans (Glob.assemble_anchored_slots hflat)
  rw [Except.ok.inj he, captures?_regex (ne_pattern_of_text? hsubject), hsubject, Option.bind_some,
    captures?_compiled]
  refine ⟨?_, fun captures hmatch => ?_⟩
  · rw [Option.isSome_map, Glob.isSome_captures?_whole_slots_iff]
  · obtain ⟨texts, htexts, rfl⟩ := Option.map_eq_some_iff.1 hmatch
    have hstrings : (texts.map String.ofList).map String.toList = texts := by
      simp [Function.comp_def]
    obtain ⟨hfills, hgreedy⟩ := Glob.greediest_of_captures?_whole_slots htexts
    rw [hstrings]
    refine ⟨hfills, ?_, hgreedy⟩
    by_cases hlines : (flags.getD .empty).multiline = true
    · exact .inl hlines
    · right
      intro capture hcapture hnewline
      have hcapture' : capture.toList ∈ texts := hstrings ▸ List.mem_map_of_mem hcapture
      exact (hfills.covers _ hcapture' _ hnewline).elim hlines fun hne => hne rfl

/-- The last `b` of the text is the one that stands for the character of the token. -/
theorem captures?_greediest_last :
    ∃ e, ofText "a?*b*" (some { ignoreCase := true }) =
        .ok (regex e { ignoreCase := true }) ∧
      (∀ m ∈ Glob.symbols "a?*b*".toList, m ∉ [Glob.Symbol.opening, .closing, .bar]) ∧
      (Subject.key (.name "AxyBzb")).text? = some "AxyBzb" ∧
      (regex e { ignoreCase := true }).captures? (.key (.name "AxyBzb")) =
        some ["x", "yBz", ""] ∧
      Glob.slots (Glob.symbols "a?*b*".toList) =
        [.text 'a', .group .one, .group .run, .text 'b', .group .run] ∧
      Glob.Fills { ignoreCase := true } (Glob.slots (Glob.symbols "a?*b*".toList))
        [['x'], ['y', 'B', 'z'], []] "AxyBzb".toList ∧
      ∀ other, Glob.Fills { ignoreCase := true } (Glob.slots (Glob.symbols "a?*b*".toList)) other
          "AxyBzb".toList →
        other = [['x'], ['y', 'B', 'z'], []] ∨ other.map List.length < [1, 3, 0] := by
  let r := whole (sequence
    [.char 'a', .group .anyOne, .group .anyRun, .char 'b', .group .anyRun])
  have hexpression : IsExpression "a?*b*" (some { ignoreCase := true }) :=
    ⟨by decide +kernel, by decide +kernel, by decide +kernel⟩
  have hread : Regex.ofLexemes (Glob.anchored (Glob.lexemes "a?*b*".toList)) = .ok r := by
    decide +kernel
  have hpattern : ofText "a?*b*" (some { ignoreCase := true }) =
      .ok (regex (r.compiled ⟨true, false⟩) { ignoreCase := true }) :=
    (CompilesAs.regex hexpression hread (by decide +kernel)).ofText_eq
  have hflat : ∀ m ∈ Glob.symbols "a?*b*".toList,
      m ∉ [Glob.Symbol.opening, .closing, .bar] := by
    decide +kernel
  have hmatch : (regex (r.compiled ⟨true, false⟩) { ignoreCase := true }).captures?
      (.key (.name "AxyBzb")) = some ["x", "yBz", ""] := by
    decide +kernel
  obtain ⟨hfills, -, hgreedy⟩ := (captures?_greediest hpattern hflat rfl).2 _ hmatch
  exact ⟨_, hpattern, hflat, rfl, hmatch, by decide +kernel, hfills, hgreedy⟩

end Pattern

end PathQuery
