import PathQuery.Proofs.Pattern.Compile

/-!
# Tokens that are ranges of numbers

A numeral is a run of digits, perhaps behind a minus sign, whose value is a word (`Numeral`), and a
range is written with two numerals and a separator between them (`Written`). Numerals have no
character of a separator, so the first separator that is found is the one that was written, and
ranges are read from the texts that they are written as (`read?_eq_some_iff`), among them their
own (`written_text`). A token is a range if it is written as one, and literal if it is so only
without its backslashes (`ofText_eq_range_iff`).
-/

namespace PathQuery

namespace Range

/-! ## Numerals -/

/-- A text is a numeral for a word: digits, perhaps behind a minus sign, with the word as value. -/
def Numeral (text : List Char) (n : Int64) : Prop :=
  ∃ digits : List Char, digits ≠ [] ∧ (∀ c ∈ digits, c.isDigit = true) ∧
    (text = digits ∧ n.toInt = Nat.ofDigitChars 10 digits 0 ∨
      text = '-' :: digits ∧ n.toInt = -(Nat.ofDigitChars 10 digits 0 : Int))

theorem digits?_eq_some_iff {text : List Char} {n : Nat} :
    digits? text = some n ↔
      text ≠ [] ∧ (∀ c ∈ text, c.isDigit = true) ∧ Nat.ofDigitChars 10 text 0 = n := by
  simp [digits?, and_assoc]

/-- The word with a value, if there is one. -/
def word? (value : Int) : Option Int64 :=
  if Int64.minValue.toInt ≤ value && value ≤ Int64.maxValue.toInt then some (.ofInt value)
  else none

theorem word?_eq_some_iff {value : Int} {n : Int64} : word? value = some n ↔ n.toInt = value := by
  have hmin := Int64.toInt_minValue
  have hmax := Int64.toInt_maxValue
  unfold word?
  by_cases hfits : Int64.minValue.toInt ≤ value ∧ value ≤ Int64.maxValue.toInt
  · have hvalue : (Int64.ofInt value).toInt = value :=
      Int64.toInt_ofInt_of_le (by omega) (by omega)
    rw [if_pos (by simpa using hfits), Option.some.injEq, ← Int64.toInt_inj, hvalue]
    exact eq_comm
  · have hlow := n.le_toInt
    have hhigh := n.toInt_lt
    rw [if_neg (by simpa using hfits)]
    exact iff_of_false nofun fun hvalue => hfits (by omega)

theorem numeral?_minus (digits : List Char) :
    numeral? ('-' :: digits) = (digits? digits).bind fun m => word? (-(m : Int)) := by
  unfold numeral?
  split
  · rename_i rest heq
    rw [(List.cons.inj heq).2]
    cases digits? rest <;> rfl
  · rename_i hne
    exact absurd rfl (hne digits)

theorem numeral?_of_ne {text : List Char} (h : ∀ digits, text ≠ '-' :: digits) :
    numeral? text = (digits? text).bind fun m => word? m := by
  unfold numeral?
  split
  · rename_i digits
    exact absurd rfl (h digits)
  · cases digits? text <;> rfl

/-- Numerals are read as the words that they are for. -/
theorem numeral?_eq_some_iff {text : List Char} {n : Int64} :
    numeral? text = some n ↔ Numeral text n := by
  constructor
  · intro h
    by_cases hminus : ∃ digits, text = '-' :: digits
    · obtain ⟨digits, rfl⟩ := hminus
      rw [numeral?_minus] at h
      obtain ⟨m, hm, hvalue⟩ := Option.bind_eq_some_iff.1 h
      obtain ⟨hne, hdigits, rfl⟩ := digits?_eq_some_iff.1 hm
      exact ⟨digits, hne, hdigits, .inr ⟨rfl, word?_eq_some_iff.1 hvalue⟩⟩
    · rw [numeral?_of_ne fun digits heq => hminus ⟨digits, heq⟩] at h
      obtain ⟨m, hm, hvalue⟩ := Option.bind_eq_some_iff.1 h
      obtain ⟨hne, hdigits, rfl⟩ := digits?_eq_some_iff.1 hm
      exact ⟨text, hne, hdigits, .inl ⟨rfl, word?_eq_some_iff.1 hvalue⟩⟩
  · rintro ⟨digits, hne, hdigits, ⟨rfl, hvalue⟩ | ⟨rfl, hvalue⟩⟩
    · have hminus : ∀ rest, text ≠ '-' :: rest := by
        rintro rest rfl
        exact absurd (hdigits '-' List.mem_cons_self) (by decide)
      rw [numeral?_of_ne hminus, digits?_eq_some_iff.2 ⟨hne, hdigits, rfl⟩]
      exact word?_eq_some_iff.2 hvalue
    · rw [numeral?_minus, digits?_eq_some_iff.2 ⟨hne, hdigits, rfl⟩]
      exact word?_eq_some_iff.2 hvalue

/-- A numeral has no character that is neither a digit nor a minus sign. -/
theorem Numeral.not_mem {text : List Char} {n : Int64} (h : Numeral text n) {c : Char}
    (hdigit : c.isDigit = false) (hminus : c ≠ '-') : c ∉ text := by
  have hdigits : ∀ digits : List Char, (∀ d ∈ digits, d.isDigit = true) → c ∉ digits := by
    intro digits hall hc
    simp [hall c hc] at hdigit
  obtain ⟨digits, -, hall, ⟨rfl, -⟩ | ⟨rfl, -⟩⟩ := h
  · exact hdigits _ hall
  · simp [hminus, hdigits _ hall]

/-- The decimal text of a word is a numeral for it. -/
theorem numeral_toString (n : Int64) : Numeral (toString n.toInt).toList n := by
  rw [Int.toString_eq_repr, Int.repr_eq_if]
  have hdigits : ∀ m : Nat, ∀ c ∈ Nat.toDigits 10 m, c.isDigit = true :=
    fun m c hc => Nat.isDigit_of_mem_toDigits (by decide) (by decide) hc
  split
  · refine ⟨Nat.toDigits 10 n.toInt.toNat, Nat.toDigits_ne_nil, hdigits _,
      .inl ⟨Nat.toList_repr, ?_⟩⟩
    rw [Nat.ofDigitChars_ten_toDigits]
    omega
  · refine ⟨Nat.toDigits 10 (-n.toInt).toNat, Nat.toDigits_ne_nil, hdigits _, .inr ⟨?_, ?_⟩⟩
    · simp
    · rw [Nat.ofDigitChars_ten_toDigits]
      omega

/-! ## Ranges -/

theorem eq_of_splitAt? {separator text : List Char} {parts : List Char × List Char}
    (h : splitAt? separator text = some parts) : text = parts.1 ++ separator ++ parts.2 := by
  induction text generalizing parts with
  | nil =>
    rw [splitAt?] at h
    split at h
    · rename_i hnil
      rw [← Option.some.inj h, hnil]
      rfl
    · cases h
  | cons c text ih =>
    rw [splitAt?] at h
    split at h
    · rename_i hpre
      obtain ⟨after, hafter⟩ := List.isPrefixOf_iff_prefix.1 hpre
      rw [← Option.some.inj h, ← hafter, List.drop_left]
      rfl
    · obtain ⟨⟨before, after⟩, hrest, rfl⟩ := Option.map_eq_some_iff.1 h
      rw [ih hrest]
      rfl

/-- A text is split before the first character with which the separator begins, if the separator
stands there. -/
theorem splitAt?_append {c : Char} {before : List Char} (h : c ∉ before)
    (separator after : List Char) :
    splitAt? (c :: separator) (before ++ c :: separator ++ after) = some (before, after) := by
  induction before with
  | nil => simp [splitAt?]
  | cons d before ih =>
    obtain ⟨hne, hmem⟩ := not_or.1 (mt List.mem_cons.2 h)
    have hpre : (c :: separator).isPrefixOf (d :: (before ++ c :: separator ++ after)) = false := by
      simp [List.isPrefixOf, hne]
    rw [List.cons_append, List.cons_append, splitAt?, hpre, ih hmem]
    rfl

/-- A text without enough characters of a kind for a separator is not split there. -/
theorem splitAt?_eq_none {separator text : List Char} {c : Char}
    (h : text.count c < separator.count c) : splitAt? separator text = none := by
  rw [Option.eq_none_iff_forall_ne_some]
  intro parts hparts
  have hsub : separator.Sublist text := by
    rw [eq_of_splitAt? hparts]
    exact (List.infix_append parts.1 separator parts.2).sublist
  have hcount := hsub.count_le c
  omega

/-- A text is written as a range: two numerals with the separator of the range between them. -/
inductive Written : List Char → Range → Prop
  | inclusive {first second : List Char} {low high : Int64} :
      Numeral first low → Numeral second high →
      Written (first ++ ['.', '.'] ++ second) (.inclusive low high)
  | exclusive {first second : List Char} {low high : Int64} :
      Numeral first low → Numeral second high →
      Written (first ++ ['.', '.', '.'] ++ second) (.exclusive low high)
  | counted {first second : List Char} {start count : Int64} :
      Numeral first start → Numeral second count →
      Written (first ++ [','] ++ second) (.counted start count)

theorem numerals?_eq_some_iff {make : Int64 → Int64 → Range} {parts : List Char × List Char}
    {range : Range} :
    numerals? make parts = some range ↔
      ∃ first second, Numeral parts.1 first ∧ Numeral parts.2 second ∧
        make first second = range := by
  unfold numerals?
  constructor
  · intro h
    obtain ⟨first, hfirst, h⟩ := Option.bind_eq_some_iff.1 h
    obtain ⟨second, hsecond, h⟩ := Option.bind_eq_some_iff.1 h
    exact ⟨first, second, numeral?_eq_some_iff.1 hfirst, numeral?_eq_some_iff.1 hsecond,
      Option.some.inj h⟩
  · rintro ⟨first, second, hfirst, hsecond, rfl⟩
    rw [numeral?_eq_some_iff.2 hfirst, numeral?_eq_some_iff.2 hsecond]
    rfl

theorem written_of_read? {text : List Char} {range : Range} (h : read? text = some range) :
    Written text range := by
  unfold read? at h
  split at h
  · rename_i parts hparts
    obtain ⟨low, high, hlow, hhigh, rfl⟩ := numerals?_eq_some_iff.1 h
    rw [eq_of_splitAt? hparts]
    exact .exclusive hlow hhigh
  · split at h
    · rename_i parts hparts
      obtain ⟨low, high, hlow, hhigh, rfl⟩ := numerals?_eq_some_iff.1 h
      rw [eq_of_splitAt? hparts]
      exact .inclusive hlow hhigh
    · obtain ⟨parts, hparts, h⟩ := Option.bind_eq_some_iff.1 h
      obtain ⟨start, count, hstart, hcount, rfl⟩ := numerals?_eq_some_iff.1 h
      rw [eq_of_splitAt? hparts]
      exact .counted hstart hcount

theorem read?_of_written {text : List Char} {range : Range} (h : Written text range) :
    read? text = some range := by
  have hdots : ∀ {numeral : List Char} {n : Int64}, Numeral numeral n → numeral.count '.' = 0 :=
    fun h => List.count_eq_zero.2 (h.not_mem rfl (by decide))
  unfold read?
  cases h with
  | @inclusive first second low high hlow hhigh =>
    have hthree : splitAt? ['.', '.', '.'] (first ++ ['.', '.'] ++ second) = none := by
      refine splitAt?_eq_none (c := '.') ?_
      simp [hdots hlow, hdots hhigh]
    rw [hthree, splitAt?_append (hlow.not_mem rfl (by decide))]
    exact numerals?_eq_some_iff.2 ⟨low, high, hlow, hhigh, rfl⟩
  | @exclusive first second low high hlow hhigh =>
    rw [splitAt?_append (hlow.not_mem rfl (by decide))]
    exact numerals?_eq_some_iff.2 ⟨low, high, hlow, hhigh, rfl⟩
  | @counted first second start count hstart hcount =>
    have hcount' : (first ++ [','] ++ second).count '.' = 0 := by
      simp [hdots hstart, hdots hcount]
    have hthree : splitAt? ['.', '.', '.'] (first ++ [','] ++ second) = none :=
      splitAt?_eq_none (c := '.') (hcount' ▸ by decide)
    have htwo : splitAt? ['.', '.'] (first ++ [','] ++ second) = none :=
      splitAt?_eq_none (c := '.') (hcount' ▸ by decide)
    rw [hthree, htwo, splitAt?_append (hstart.not_mem rfl (by decide))]
    exact numerals?_eq_some_iff.2 ⟨start, count, hstart, hcount, rfl⟩

/-- Ranges are read from the texts that are written as them. -/
theorem read?_eq_some_iff {text : List Char} {range : Range} :
    read? text = some range ↔ Written text range :=
  ⟨written_of_read?, read?_of_written⟩

theorem Written.dot_or_comma_mem {text : List Char} {range : Range} (h : Written text range) :
    '.' ∈ text ∨ ',' ∈ text := by
  cases h <;> simp

/-- A range has digits, minus signs, dots and commas only. -/
theorem Written.not_mem {text : List Char} {range : Range} (h : Written text range) {c : Char}
    (hdigit : c.isDigit = false) (hmarks : c ∉ ['-', '.', ',']) : c ∉ text := by
  simp only [List.mem_cons, List.not_mem_nil, or_false, not_or] at hmarks
  obtain ⟨hminus, hdot, hcomma⟩ := hmarks
  cases h with
  | inclusive hlow hhigh =>
    simp [hlow.not_mem hdigit hminus, hhigh.not_mem hdigit hminus, hdot]
  | exclusive hlow hhigh =>
    simp [hlow.not_mem hdigit hminus, hhigh.not_mem hdigit hminus, hdot]
  | counted hstart hcount =>
    simp [hstart.not_mem hdigit hminus, hcount.not_mem hdigit hminus, hcomma]

/-- The text of a range is written as that range. -/
theorem written_text (range : Range) : Written range.text.toList range := by
  cases range with
  | inclusive low high =>
    simpa [text] using Written.inclusive (numeral_toString low) (numeral_toString high)
  | exclusive low high =>
    simpa [text] using Written.exclusive (numeral_toString low) (numeral_toString high)
  | counted start count =>
    simpa [text] using Written.counted (numeral_toString start) (numeral_toString count)

end Range

/-! ## Tokens -/

theorem Path.unescape_eq_self {text : List Char} (h : '\\' ∉ text) : unescape text = text := by
  induction text with
  | nil => rfl
  | cons c text ih =>
    obtain ⟨hne, hmem⟩ := not_or.1 (mt List.mem_cons.2 h)
    rw [unescape, ih hmem]
    · intro heq _
      exact hne heq.symm
    · intro _ _ heq _
      exact hne heq.symm

namespace Pattern

/-- Text that is a range without its backslashes is not made of wildcards. -/
theorem not_all_isWildcard_of_written {text : List Char} {r : Range}
    (h : r.Written (Path.unescape text)) : text.all Glob.isWildcard = false := by
  rw [Bool.eq_false_iff]
  intro hall
  have hwild := List.all_eq_true.1 hall
  have hback : '\\' ∉ text := fun hmem => absurd (hwild '\\' hmem) (by decide)
  rw [Path.unescape_eq_self hback] at h
  rcases h.dot_or_comma_mem with hdot | hcomma
  · exact absurd (hwild '.' hdot) (by decide)
  · exact absurd (hwild ',' hcomma) (by decide)

/-- A token that is a range without its backslashes is that range only if it has none. -/
theorem ofText_of_written [Regex.Engine] {token : String} {r : Range}
    (h : r.Written (Path.unescape token.toList)) (flags : Option Flags) :
    ofText token flags =
      .ok (if token.toList.contains '\\' then
        literal (String.ofList (Path.unescape token.toList)) else range r) := by
  unfold ofText
  dsimp only
  rw [not_all_isWildcard_of_written h, Range.read?_eq_some_iff.2 h]
  rfl

/-- A range that a token compiles to is what is read from it, and the token has no backslashes. -/
theorem read?_of_ofText [Regex.Engine] {token : String} {flags : Option Flags} {r : Range}
    (h : ofText token flags = .ok (range r)) :
    Range.read? (Path.unescape token.toList) = some r ∧ '\\' ∉ token.toList := by
  have hcompiles := compilesAs_ofText token flags
  rw [h] at hcompiles
  cases hcompiles with
  | range _ hread hback =>
    refine ⟨hread, fun hmem => ?_⟩
    rw [List.contains_iff_mem.2 hmem] at hback
    cases hback

/-- **Ranges are recognised exactly and print back.** A token compiles to a range, whatever the
flags, if and only if it is written as that range; if it is written as a range only without its
backslashes, it is literal. The text of every range compiles to that range again, in the form in
which it was written. -/
theorem ofText_eq_range_iff [Regex.Engine] (token : String) (flags : Option Flags) :
    (∀ r, ofText token flags = .ok (range r) ↔ Range.Written token.toList r) ∧
      ((∃ r, Range.Written (Path.unescape token.toList) r) → '\\' ∈ token.toList →
        ofText token flags = .ok (literal (String.ofList (Path.unescape token.toList)))) ∧
      ∀ r, ofText (range r).text flags = .ok (range r) := by
  have hranges : ∀ (token : String) (r : Range),
      ofText token flags = .ok (range r) ↔ Range.Written token.toList r := by
    intro token r
    constructor
    · intro h
      obtain ⟨hread, hback⟩ := read?_of_ofText h
      rw [Path.unescape_eq_self hback] at hread
      exact Range.read?_eq_some_iff.1 hread
    · intro h
      have hback : '\\' ∉ token.toList := h.not_mem rfl (by decide)
      have hwritten : r.Written (Path.unescape token.toList) :=
        (Path.unescape_eq_self hback).symm ▸ h
      rw [ofText_of_written hwritten,
        if_neg fun hmem => hback (List.contains_iff_mem.1 hmem)]
  refine ⟨hranges token, ?_, fun r => (hranges _ r).2 (Range.written_text r)⟩
  rintro ⟨r, hr⟩ hback
  rw [ofText_of_written hr, if_pos (List.contains_iff_mem.2 hback)]

/-- Leading zeros, the largest word, and a backslash before one of the dots. -/
theorem ofText_eq_range_iff_escaped :
    (∃ r, Range.Written (Path.unescape "-007.\\..9223372036854775807".toList) r) ∧
      '\\' ∈ "-007.\\..9223372036854775807".toList ∧
      ofText "-007.\\..9223372036854775807" (some { ignoreCase := true }) =
        .ok (literal "-007...9223372036854775807") := by
  have hwritten : Range.Written (Path.unescape "-007.\\..9223372036854775807".toList)
      (.exclusive (-7) 9223372036854775807) :=
    Range.read?_eq_some_iff.1 (by decide +kernel)
  have hback : '\\' ∈ "-007.\\..9223372036854775807".toList := by decide
  exact ⟨⟨_, hwritten⟩, hback,
    (ofText_eq_range_iff "-007.\\..9223372036854775807" (some { ignoreCase := true })).2.1
      ⟨_, hwritten⟩ hback⟩

end Pattern

end PathQuery
