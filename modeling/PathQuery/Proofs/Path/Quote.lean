import PathQuery.Path.Escape
import PathQuery.Path.Segment

/-!
# Text without meaning

`quote p` puts a backslash before the characters that satisfy `p`. Escaped text is
quoted where a character has a meaning in path text (`escape_eq_quote`). Each reader of
path text passes over text in which the characters that it looks for are quoted; the
one that splits at slashes leaves all but those quoted (`segmentTexts_escape_append`).
-/

namespace PathQuery.Path

/-! ## Quoting -/

/-- Puts a backslash before every character that satisfies `p`. -/
def quote (p : Char → Bool) : List Char → List Char
  | [] => []
  | c :: rest => if p c then '\\' :: c :: quote p rest else c :: quote p rest

theorem toList_ne_nil {text : String} (h : text ≠ "") : text.toList ≠ [] := by
  rwa [ne_eq, String.toList_eq_nil_iff]

theorem escape_eq_quote (text : List Char) : escape text = quote isSpecial text := by
  induction text with
  | nil => rfl
  | cons c rest ih => rw [escape, quote, ih]

section Quote

variable {p : Char → Bool}

theorem quote_cons_of_pos {c : Char} (h : p c = true) (rest : List Char) :
    quote p (c :: rest) = '\\' :: c :: quote p rest :=
  if_pos h

theorem quote_cons_of_neg {c : Char} (h : ¬p c = true) (rest : List Char) :
    quote p (c :: rest) = c :: quote p rest :=
  if_neg h

theorem quote_eq_nil_iff {text : List Char} : quote p text = [] ↔ text = [] := by
  cases text with
  | nil => exact iff_of_true rfl rfl
  | cons c rest =>
    rw [quote]
    split <;> exact iff_of_false (List.cons_ne_nil _ _) (List.cons_ne_nil _ _)

/-- Quoted text begins with a backslash or a character that is not quoted. -/
theorem eq_backslash_of_quote_eq_cons {text rest : List Char} {c : Char}
    (h : quote p text = c :: rest) (hc : p c = true) : c = '\\' := by
  cases text with
  | nil => cases h
  | cons d text =>
    by_cases hd : p d = true
    · rw [quote_cons_of_pos hd] at h
      exact (List.cons.inj h).1.symm
    · rw [quote_cons_of_neg hd] at h
      exact absurd ((List.cons.inj h).1 ▸ hc) hd

theorem quote_ne_cons {c : Char} (hc : p c = true) (hne : c ≠ '\\') (text rest : List Char) :
    quote p text ≠ c :: rest :=
  fun h => hne (eq_backslash_of_quote_eq_cons h hc)

theorem backslash_mem_quote {text : List Char} {c : Char} (hmem : c ∈ text) (hc : p c = true) :
    '\\' ∈ quote p text := by
  induction text with
  | nil => cases hmem
  | cons d text ih =>
    by_cases hd : p d = true
    · rw [quote_cons_of_pos hd]
      exact List.mem_cons_self
    · rw [quote_cons_of_neg hd]
      rcases List.mem_cons.1 hmem with rfl | hmem
      · exact absurd hc hd
      · exact List.mem_cons_of_mem _ (ih hmem)

end Quote

/-! ## Readers -/

theorem unescape_cons_of_ne {c : Char} (h : c ≠ '\\') (rest : List Char) :
    unescape (c :: rest) = c :: unescape rest := by
  rw [unescape]
  · intro h' _
    exact h h'
  · intro _ _ h' _
    exact h h'

theorem unescape_quote {p : Char → Bool} (hp : p '\\' = true) (text : List Char) :
    unescape (quote p text) = text := by
  induction text with
  | nil => rfl
  | cons c text ih =>
    by_cases hc : p c = true
    · rw [quote_cons_of_pos hc, unescape, ih]
    · have hne : c ≠ '\\' := fun h => hc (h ▸ hp)
      rw [quote_cons_of_neg hc, unescape_cons_of_ne hne, ih]

theorem splitValue_cons_of_ne {c : Char} (heq : c ≠ '=') (hne : c ≠ '\\') (rest : List Char) :
    splitValue (c :: rest) = (c :: (splitValue rest).1, (splitValue rest).2) := by
  rw [splitValue]
  · intro h
    exact heq h
  · intro _ _ h _
    exact hne h

theorem splitValue_quote_append {p : Char → Bool} (hp : p '\\' = true) (heq : p '=' = true)
    (text rest : List Char) :
    splitValue (quote p text ++ rest) =
      (quote p text ++ (splitValue rest).1, (splitValue rest).2) := by
  induction text with
  | nil => rfl
  | cons c text ih =>
    by_cases hc : p c = true
    · rw [quote_cons_of_pos hc, List.cons_append, List.cons_append, splitValue, ih]
      rfl
    · have hcne : c ≠ '\\' := fun h => hc (h ▸ hp)
      have hceq : c ≠ '=' := fun h => hc (h ▸ heq)
      rw [quote_cons_of_neg hc, List.cons_append, splitValue_cons_of_ne hceq hcne, ih]
      rfl

theorem splitValue_quote {p : Char → Bool} (hp : p '\\' = true) (heq : p '=' = true)
    (text : List Char) : splitValue (quote p text) = (quote p text, none) := by
  have h := splitValue_quote_append hp heq text []
  rwa [List.append_nil, splitValue, List.append_nil] at h

theorem splitFlags_cons_of_ne {c : Char} (hslash : c ≠ '/') (hne : c ≠ '\\') (rest : List Char) :
    splitFlags (c :: rest) = (c :: (splitFlags rest).1, (splitFlags rest).2) := by
  rw [splitFlags]
  · intro _ _ h _
    exact hne h
  · intro h
    exact hslash h

/-- A slash before text that begins with no slash starts no flags. -/
theorem splitFlags_slash_cons {rest : List Char} (h : ∀ letters, rest ≠ '/' :: letters) :
    splitFlags ('/' :: rest) = ('/' :: (splitFlags rest).1, (splitFlags rest).2) := by
  rw [splitFlags]
  exact h

/-- A slash begins flags, of which another slash is the first sign, or the text goes on. -/
theorem splitFlags_slash (rest : List Char) :
    splitFlags ('/' :: rest) = ('/' :: (splitFlags rest).1, (splitFlags rest).2) ∨
      ∃ letters, rest = '/' :: letters ∧ splitFlags ('/' :: rest) = ([], some letters) := by
  by_cases h : ∃ letters, rest = '/' :: letters
  · obtain ⟨letters, rfl⟩ := h
    rw [splitFlags]
    split
    · exact .inr ⟨letters, rfl, rfl⟩
    · exact .inl rfl
  · exact .inl (splitFlags_slash_cons fun letters heq => h ⟨letters, heq⟩)

theorem splitFlags_quote_append {p : Char → Bool} (hp : p '\\' = true) (hslash : p '/' = true)
    (text rest : List Char) :
    splitFlags (quote p text ++ rest) =
      (quote p text ++ (splitFlags rest).1, (splitFlags rest).2) := by
  induction text with
  | nil => rfl
  | cons c text ih =>
    by_cases hc : p c = true
    · rw [quote_cons_of_pos hc, List.cons_append, List.cons_append, splitFlags, ih]
      rfl
    · have hcne : c ≠ '\\' := fun h => hc (h ▸ hp)
      have hcslash : c ≠ '/' := fun h => hc (h ▸ hslash)
      rw [quote_cons_of_neg hc, List.cons_append, splitFlags_cons_of_ne hcslash hcne, ih]
      rfl

theorem splitFlags_escape_append (text rest : List Char) :
    splitFlags (escape text ++ rest) =
      (escape text ++ (splitFlags rest).1, (splitFlags rest).2) := by
  rw [escape_eq_quote]
  exact splitFlags_quote_append (by decide) (by decide) text rest

theorem splitFlags_escape (text : List Char) : splitFlags (escape text) = (escape text, none) := by
  have h := splitFlags_escape_append text []
  rwa [List.append_nil, splitFlags, List.append_nil] at h

/-- Escaped text that is not empty begins with no slash. -/
theorem escape_append_ne_slash_cons {text : List Char} (h : text ≠ []) (rest after : List Char) :
    escape text ++ rest ≠ '/' :: after := by
  rw [escape_eq_quote]
  cases hquote : quote isSpecial text with
  | nil => exact absurd (quote_eq_nil_iff.1 hquote) h
  | cons c tail =>
    intro heq
    obtain ⟨rfl, -⟩ := List.cons.inj heq
    exact absurd hquote (quote_ne_cons (by decide) (by decide) text tail)

/-! ## Segments -/

/-- Whether a character has a meaning in the text of a segment, where slashes have none. -/
def isMark (c : Char) : Bool := isSpecial c && c != '/'

theorem isMark_iff {c : Char} : isMark c = true ↔ isSpecial c = true ∧ c ≠ '/' := by
  rw [isMark, Bool.and_eq_true, bne_iff_ne]

theorem foldr_consHead_nil {text : List Char} (h : text ≠ []) :
    text.foldr consHead [] = [text] := by
  induction text with
  | nil => exact absurd rfl h
  | cons c text ih =>
    cases text with
    | nil => rfl
    | cons d text => rw [List.foldr_cons, ih (List.cons_ne_nil d text), consHead]

theorem foldr_consHead_cons (text first : List Char) (rest : List (List Char)) :
    text.foldr consHead (first :: rest) = (text ++ first) :: rest := by
  induction text with
  | nil => rfl
  | cons c text ih => rw [List.foldr_cons, ih, consHead, List.cons_append]

theorem segmentTexts_cons_of_ne {c : Char} (hslash : c ≠ '/') (hne : c ≠ '\\')
    (rest : List Char) : segmentTexts (c :: rest) = consHead c (segmentTexts rest) := by
  rw [segmentTexts]
  · intro h
    exact hslash h
  · intro _ h _
    exact hne h
  · intro _ _ h _
    exact hne h

theorem segmentTexts_backslash_cons {c : Char} (hslash : c ≠ '/') (rest : List Char) :
    segmentTexts ('\\' :: c :: rest) = consHead '\\' (consHead c (segmentTexts rest)) := by
  rw [segmentTexts]
  intro h
  exact hslash h

/-- Escaped text begins the first segment of a path, with its slashes bare. -/
theorem segmentTexts_escape_append (text rest : List Char) :
    segmentTexts (escape text ++ rest) = (quote isMark text).foldr consHead (segmentTexts rest) := by
  rw [escape_eq_quote]
  induction text with
  | nil => rfl
  | cons c text ih =>
    by_cases hc : isSpecial c = true
    · rw [quote_cons_of_pos hc, List.cons_append, List.cons_append]
      by_cases hslash : c = '/'
      · have hmark : ¬isMark c = true := fun h => (isMark_iff.1 h).2 hslash
        rw [quote_cons_of_neg hmark, List.foldr_cons, hslash, segmentTexts, ih]
      · rw [quote_cons_of_pos (isMark_iff.2 ⟨hc, hslash⟩), List.foldr_cons, List.foldr_cons,
          segmentTexts_backslash_cons hslash, ih]
    · have hmark : ¬isMark c = true := fun h => hc (isMark_iff.1 h).1
      have hslash : c ≠ '/' := fun h => hc (h ▸ rfl)
      have hne : c ≠ '\\' := fun h => hc (h ▸ rfl)
      rw [quote_cons_of_neg hc, quote_cons_of_neg hmark, List.foldr_cons, List.cons_append,
        segmentTexts_cons_of_ne hslash hne, ih]

end PathQuery.Path

namespace PathQuery.Segment

open PathQuery.Path

/-- A text that is none of the marks, with a key that is none, is a segment with that key. -/
theorem ofTexts_cons_of_splitValue {text key : List Char} {value : Option (List Char)}
    (hsplit : splitValue text = (key, value)) (hnil : text ≠ []) (hdot : text ≠ ['.'])
    (hstars : text ≠ ['*', '*']) (hkey : key ≠ []) (hup : key ≠ ['.', '.'])
    (hall : key ≠ ['*', '*']) (pending : Bool) (rest : List (List Char)) :
    ofTexts pending (text :: rest) =
      { key := some (textToken key)
        value := (value.filter (· ≠ [])).map textToken
        recursive := pending } :: ofTexts false rest := by
  rw [ofTexts, hsplit]
  · dsimp only
    split
    · exact absurd rfl hup
    · exact absurd rfl hall
    · exact absurd rfl hkey
    · rfl
  · exact hnil
  · exact hdot
  · exact hstars

/-- A text with a quoted key is a segment with that key, whatever it spells. -/
theorem ofTexts_quote_cons {text key : List Char} {value : Option (List Char)} (hkey : key ≠ [])
    (hsplit : splitValue text = (quote isMark key, value)) (pending : Bool)
    (rest : List (List Char)) :
    ofTexts pending (text :: rest) =
      { key := some (textToken (quote isMark key))
        value := (value.filter (· ≠ [])).map textToken
        recursive := pending } :: ofTexts false rest := by
  have hnil : quote isMark key ≠ [] := fun h => hkey (quote_eq_nil_iff.1 h)
  have hdot : ∀ after, quote isMark key ≠ '.' :: after :=
    quote_ne_cons (by decide) (by decide) key
  have hstar : ∀ after, quote isMark key ≠ '*' :: after :=
    quote_ne_cons (by decide) (by decide) key
  generalize quote isMark key = quoted at hsplit hnil hdot hstar
  have htext : ∀ marks, splitValue marks = (marks, none) → quoted ≠ marks → text ≠ marks := by
    rintro marks hmarks hne rfl
    rw [hmarks] at hsplit
    exact hne (Prod.mk.inj hsplit).1.symm
  exact ofTexts_cons_of_splitValue hsplit (htext [] rfl hnil) (htext ['.'] rfl (hdot _))
    (htext ['*', '*'] rfl (hstar _)) hnil (hdot _) (hstar _) pending rest

end PathQuery.Segment
