import PathQuery.Query
import PathQuery.Proofs.Path.Join

/-!
# Flags at the end of a path

A path is suffixed with flags if two slashes, which no backslash takes the meaning from, and
letters of flags end it (`Suffixed`). The reader of flags finds that suffix and no other
(`splitFlags_cases`, `Suffixed.splitFlags_eq`), whatever slashes stand before it. It adds the flags
that the letters name to those given (`addFlags_eq_union`), so compiling a path with its suffix is
compiling the path before it under more flags (`compile_suffixed`).
-/

namespace PathQuery

/-! ## Letters -/

namespace Flags

/-- The flags whose letters are among some letters. -/
def named (letters : List Char) : Flags where
  ignoreCase := letters.contains 'i'
  extended := letters.contains 'x'
  multiline := letters.contains 'm'

theorem isLetter_iff {c : Char} : isLetter c = true ↔ c ∈ ['i', 'm', 'x'] := by
  unfold isLetter ofLetter?
  split <;> simp_all

theorem union_assoc (a b c : Flags) : (a.union b).union c = a.union (b.union c) := by
  simp [union, Bool.or_assoc]

theorem empty_union (flags : Flags) : empty.union flags = flags := by
  simp [union, empty]

theorem named_cons (c : Char) (letters : List Char) :
    named (c :: letters) = ((ofLetter? c).getD .empty).union (named letters) := by
  unfold ofLetter?
  split <;> simp_all [named, union, empty, eq_comm]

theorem named_eq_empty_iff {letters : List Char} (h : ∀ c ∈ letters, c ∈ ['i', 'm', 'x']) :
    named letters = empty ↔ letters = [] := by
  constructor
  · intro hempty
    cases letters with
    | nil => rfl
    | cons c letters =>
      have hc := h c List.mem_cons_self
      simp only [List.mem_cons, List.not_mem_nil, or_false] at hc
      rcases hc with rfl | rfl | rfl <;> simp [named, empty] at hempty
  · rintro rfl
    rfl

end Flags

namespace Path

theorem addFlags_eq_union (base : Flags) (letters : List Char) :
    addFlags base letters = base.union (.named letters) := by
  unfold addFlags
  induction letters generalizing base with
  | nil => simp [Flags.named, Flags.union]
  | cons c letters ih => rw [List.foldl_cons, ih, Flags.named_cons, Flags.union_assoc]

/-! ## The suffix -/

/-- A path is a text, two slashes that no backslash takes the meaning from, and letters of flags. -/
structure Suffixed (path text letters : List Char) : Prop where
  eq : path = text ++ '/' :: '/' :: letters
  closed : endsOpen text = false
  letters : ∀ c ∈ letters, c ∈ ['i', 'm', 'x']

/-- What can be read from a path: all of it, or the text before its suffix and the letters. -/
inductive Readable (path : List Char) : List Char × Option (List Char) → Prop
  | whole : Readable path (path, none)
  | suffixed {text letters : List Char} :
      Suffixed path text letters → Readable path (text, some letters)

theorem Readable.plain {rest : List Char} {parts : List Char × Option (List Char)}
    (h : Readable rest parts) {c : Char} (hc : c ≠ '\\') :
    Readable (c :: rest) (c :: parts.1, parts.2) := by
  cases h with
  | whole => exact .whole
  | @suffixed text letters h =>
    have hclosed := (endsOpen_cons_of_ne hc text).trans h.closed
    exact .suffixed ⟨congrArg (c :: ·) h.eq, hclosed, h.letters⟩

theorem Readable.escape {rest : List Char} {parts : List Char × Option (List Char)}
    (h : Readable rest parts) (c : Char) :
    Readable ('\\' :: c :: rest) ('\\' :: c :: parts.1, parts.2) := by
  cases h with
  | whole => exact .whole
  | suffixed h => exact .suffixed ⟨congrArg ('\\' :: c :: ·) h.eq, h.closed, h.letters⟩

/-- Flags are found only as a suffix, and a path in which none are found stays as it is. -/
theorem readable_splitFlags (path : List Char) : Readable path (splitFlags path) := by
  fun_induction splitFlags path with
  | case1 => exact .whole
  | case2 c rest ih => exact ih.escape c
  | case3 letters hall =>
    exact .suffixed ⟨rfl, rfl, fun c hc => Flags.isLetter_iff.1 (List.all_eq_true.1 hall c hc)⟩
  | case4 letters hall ih => exact ih.plain (by decide)
  | case5 rest hslash ih => exact ih.plain (by decide)
  | case6 c rest hescape hslash ih =>
    by_cases hc : c = '\\'
    · -- Only a backslash at the end of the path is read as a character of its own.
      subst hc
      cases rest with
      | nil => exact .whole
      | cons d rest => exact (hescape d rest rfl rfl).elim
    · exact ih.plain hc

/-- A slash before a slash that comes later begins no suffix. -/
theorem splitFlags_slash_of_mem {rest : List Char} (h : '/' ∈ rest.tail) :
    splitFlags ('/' :: rest) = ('/' :: (splitFlags rest).1, (splitFlags rest).2) := by
  rcases splitFlags_slash rest with hread | ⟨letters, rfl, hread⟩
  · exact hread
  · have hsuffix := readable_splitFlags ('/' :: '/' :: letters)
    rw [hread] at hsuffix
    cases hsuffix with
    | suffixed hsuffix => exact absurd (hsuffix.letters '/' h) (by decide)

/-- The suffix of a path is found. -/
theorem Suffixed.splitFlags_eq {path text letters : List Char} (h : Suffixed path text letters) :
    splitFlags path = (text, some letters) := by
  obtain ⟨rfl, hclosed, hletters⟩ := h
  have hunits := units_of_endsOpen hclosed
  clear hclosed
  induction hunits with
  | nil =>
    have hall : letters.all Flags.isLetter = true :=
      List.all_eq_true.2 fun c hc => Flags.isLetter_iff.2 (hletters c hc)
    rw [List.nil_append, splitFlags, if_pos hall]
  | @plain c rest hc _ ih =>
    rw [List.cons_append]
    by_cases hslash : c = '/'
    · have hmem : '/' ∈ (rest ++ '/' :: '/' :: letters).tail := by
        cases rest <;> simp
      rw [hslash, splitFlags_slash_of_mem hmem, ih]
    · rw [splitFlags_cons_of_ne hslash hc, ih]
  | escape c _ ih => rw [List.cons_append, List.cons_append, splitFlags, ih]

theorem not_suffixed_of_splitFlags {path : List Char} (h : (splitFlags path).2 = none)
    (text letters : List Char) : ¬Suffixed path text letters := by
  intro hsuffix
  rw [hsuffix.splitFlags_eq] at h
  cases h

/-- A path with a suffix has the flags given and those that the letters name, unset flags only if
there are none of either kind. -/
theorem flagsOf_of_suffixed {path text letters : List Char} (h : Suffixed path text letters)
    (base : Option Flags) :
    flagsOf path base =
      (if base = none ∧ letters = [] then none
        else some ((base.getD .empty).union (.named letters)), text) := by
  have hempty := Flags.named_eq_empty_iff h.letters
  unfold flagsOf
  rw [h.splitFlags_eq]
  dsimp only
  rw [addFlags_eq_union]
  cases base with
  | none => simp [Flags.empty_union, Flags.isEmpty, hempty]
  | some base => simp

theorem flagsOf_of_not_suffixed {path : List Char}
    (h : ∀ text letters, ¬Suffixed path text letters) (base : Option Flags) :
    flagsOf path base = (base, path) := by
  have hread := readable_splitFlags path
  unfold flagsOf
  generalize splitFlags path = parts at hread
  cases hread with
  | whole => rfl
  | suffixed hsuffix => exact absurd hsuffix (h _ _)

end Path

namespace Query

open PathQuery.Path

/-- **A suffix is flags and nothing else is.** If two slashes, which no backslash takes the meaning
from, and letters of flags end a path, then it is read as the text before them, under the flags
given and those that the letters name together; these are unset only if there are none of either
kind. Every other path is read as it is, under the flags given. So a path with one suffix compiles
as the text before it does under all these flags, unless both kinds are missing. -/
theorem compile_suffixed [Regex.Engine] (base : Option Flags) :
    (∀ path text letters, Suffixed path text letters →
        (flagsOf path base).2 = text ∧
          ((flagsOf path base).1 = none ↔ base = none ∧ letters = []) ∧
          ∀ flags ∈ (flagsOf path base).1,
            flags = (base.getD .empty).union (.named letters)) ∧
      (∀ path, (∀ text letters, ¬Suffixed path text letters) →
        flagsOf path base = (base, path)) ∧
      ∀ (path text : String) (letters : List Char), Suffixed path.toList text.toList letters →
        (∀ before others, ¬Suffixed text.toList before others) →
        letters ≠ [] ∨ base ≠ none →
        compile path base = compile text (some ((base.getD .empty).union (.named letters))) := by
  refine ⟨?_, fun path h => flagsOf_of_not_suffixed h base, ?_⟩
  · intro path text letters h
    rw [flagsOf_of_suffixed h]
    refine ⟨rfl, ?_, ?_⟩
    · simp
    · intro flags hflags
      by_cases hnone : base = none ∧ letters = []
      · simp [hnone] at hflags
      · simpa [hnone] using hflags.symm
  · intro path text letters h htext hset
    have hnone : ¬(base = none ∧ letters = []) :=
      fun ⟨hbase, hletters⟩ => hset.elim (· hletters) (· hbase)
    unfold compile
    rw [flagsOf_of_suffixed h, flagsOf_of_not_suffixed htext, if_neg hnone]

/-- Three slashes, the first of them part of the text, and one of two behind a backslash. -/
theorem compile_suffixed_slashes :
    Suffixed "a\\\\///xi".toList "a\\\\/".toList ['x', 'i'] ∧
      (∀ text letters, ¬Suffixed "a\\//xi".toList text letters) ∧
      (∀ before others, ¬Suffixed "a\\\\/".toList before others) ∧
      (flagsOf "a\\\\///xi".toList none).2 = "a\\\\/".toList ∧
      flagsOf "a\\//xi".toList none = (none, "a\\//xi".toList) ∧
      compile "a\\\\///xi" none =
        compile "a\\\\/" (some { ignoreCase := true, extended := true }) := by
  have hsuffix : Suffixed "a\\\\///xi".toList "a\\\\/".toList ['x', 'i'] := by
    refine ⟨rfl, rfl, ?_⟩
    simp
  have hescaped : ∀ text letters, ¬Suffixed "a\\//xi".toList text letters :=
    not_suffixed_of_splitFlags rfl
  have htext : ∀ before others, ¬Suffixed "a\\\\/".toList before others :=
    not_suffixed_of_splitFlags rfl
  have hflags : ((none : Option Flags).getD .empty).union (.named ['x', 'i']) =
      { ignoreCase := true, extended := true } := by
    decide
  obtain ⟨hread, hwhole, hcompile⟩ := compile_suffixed none
  have hsame := hcompile _ _ _ hsuffix htext (.inl (List.cons_ne_nil _ _))
  rw [hflags] at hsame
  exact ⟨hsuffix, hescaped, htext, (hread _ _ _ hsuffix).1, hwhole _ hescaped, hsame⟩

end Query

end PathQuery
