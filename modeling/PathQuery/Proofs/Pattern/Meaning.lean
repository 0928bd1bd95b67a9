import PathQuery.Pattern.Compile
import PathQuery.Proofs.Regex.Language

/-!
# What token text stands for

Token text is a list of symbols: characters that stand for themselves, wildcards, brackets
and bars. `Stands` says which texts the symbols stand for. It goes along the first
alternative (`Leading`), which ends at a bar outside all brackets, or starts behind such a
bar. For symbols whose brackets pair up (`Nested`) both parts follow the symbols one by one
(`first_plain`, `first_group`, `later_bar` and the like).
-/

namespace PathQuery

open Text

/-! ## Characters under flags -/

namespace Flags

/-- Whether two characters match: equal, or equal up to case if case is ignored. -/
def Alike (flags : Flags) (c d : Char) : Prop :=
  if flags.ignoreCase then foldCase c = foldCase d else c = d

/-- Whether wildcards cover a character. -/
def Covers (flags : Flags) (c : Char) : Prop := flags.multiline = true ∨ c ≠ '\n'

instance (flags : Flags) (c d : Char) : Decidable (flags.Alike c d) :=
  inferInstanceAs (Decidable (if flags.ignoreCase then foldCase c = foldCase d else c = d))

instance (flags : Flags) (c : Char) : Decidable (flags.Covers c) :=
  inferInstanceAs (Decidable (flags.multiline = true ∨ c ≠ '\n'))

theorem alike_iff {flags : Flags} {c d : Char} :
    flags.Alike c d ↔ flags.mode.canon d = flags.mode.canon c := by
  unfold Alike mode Regex.Mode.canon
  dsimp only
  split <;> exact eq_comm

theorem covers_iff {flags : Flags} {c : Char} : flags.Covers c ↔ flags.mode.covers c = true := by
  unfold Covers mode Regex.Mode.covers
  simp

end Flags

namespace Glob

/-! ## Symbols -/

/-- A symbol of token text. -/
inductive Symbol
  | plain (c : Char)
  | star
  | question
  | opening
  | closing
  | bar
  deriving DecidableEq

def Symbol.isWildcard : Symbol → Bool
  | star => true
  | question => true
  | _ => false

def symbol : Char → Symbol
  | '*' => .star
  | '?' => .question
  | '(' => .opening
  | ')' => .closing
  | '|' => .bar
  | c => .plain c

/-- The symbols of token text. A character behind a backslash stands for itself, and a backslash
at the end for nothing. -/
def symbols : List Char → List Symbol
  | [] => []
  | ['\\'] => []
  | '\\' :: c :: rest => .plain c :: symbols rest
  | c :: rest => symbol c :: symbols rest

/-- Symbols whose brackets pair up. -/
inductive Nested : List Symbol → Prop
  | nil : Nested []
  | cons {m : Symbol} {rest : List Symbol} :
      m ≠ .opening → m ≠ .closing → Nested rest → Nested (m :: rest)
  | group {body rest : List Symbol} :
      Nested body → Nested rest → Nested (.opening :: (body ++ .closing :: rest))

/-! ## Meaning -/

/-- The symbols from the start of an alternative on: all of them, or those behind a bar outside
all brackets. -/
def Alternative (symbols alternative : List Symbol) : Prop :=
  alternative = symbols ∨
    ∃ before, Nested before ∧ symbols = before ++ .bar :: alternative

/-- A run of wildcards, which ends where the rest begins, stands for a text: any text if it has a
star, else one with at most as many characters as it has question marks. -/
structure Runs (flags : Flags) (run rest : List Symbol) (s : List Char) : Prop where
  wild : ∀ m ∈ run, m.isWildcard = true
  ends : ∀ m ∈ rest.head?, m.isWildcard = false
  covers : ∀ d ∈ s, flags.Covers d
  room : .star ∈ run ∨ s.length ≤ run.length

/-- The first alternative of some symbols stands for a text. -/
inductive Leading (flags : Flags) : List Symbol → List Char → Prop
  | nil : Leading flags [] []
  | bar (rest : List Symbol) : Leading flags (.bar :: rest) []
  | plain {c d : Char} {rest : List Symbol} {s : List Char} :
      flags.Alike c d → Leading flags rest s → Leading flags (.plain c :: rest) (d :: s)
  | wildcards {run rest : List Symbol} {s t : List Char} :
      run ≠ [] → Runs flags run rest s → Leading flags rest t →
      Leading flags (run ++ rest) (s ++ t)
  /-- A group stands for what its alternatives stand for. -/
  | group {body alternative rest : List Symbol} {s t : List Char} :
      Nested body → Alternative body alternative → Leading flags alternative s →
      Leading flags rest t → Leading flags (.opening :: (body ++ .closing :: rest)) (s ++ t)

/-- The symbols stand for a text: one of their alternatives does. -/
def Stands (flags : Flags) (symbols : List Symbol) (s : List Char) : Prop :=
  ∃ alternative, Alternative symbols alternative ∧ Leading flags alternative s

/-! ## Brackets that pair up -/

theorem not_nested_closing {rest : List Symbol} : ¬Nested (.closing :: rest) := by
  intro h
  cases h with
  | cons _ hclosing _ => exact hclosing rfl

theorem Nested.of_cons {m : Symbol} {rest : List Symbol} (hm : m ≠ .opening)
    (h : Nested (m :: rest)) : Nested rest := by
  cases h with
  | cons _ _ hrest => exact hrest
  | group => exact absurd rfl hm

theorem Nested.of_opening {rest : List Symbol} (h : Nested (.opening :: rest)) :
    ∃ body rest', rest = body ++ .closing :: rest' ∧ Nested body ∧ Nested rest' := by
  cases h with
  | cons hopening _ _ => exact absurd rfl hopening
  | group hbody hrest => exact ⟨_, _, rfl, hbody, hrest⟩

/-- The bracket that closes a group is found in one way. -/
theorem Nested.append_closing_inj {body body' rest rest' : List Symbol} (h : Nested body)
    (h' : Nested body') (heq : body ++ .closing :: rest = body' ++ .closing :: rest') :
    body = body' ∧ rest = rest' := by
  induction h generalizing body' rest rest' with
  | nil =>
    cases body' with
    | nil => exact ⟨rfl, (List.cons.inj heq).2⟩
    | cons m body' =>
      obtain ⟨rfl, -⟩ := List.cons.inj heq
      exact absurd h' not_nested_closing
  | @cons m tail hopening hclosing htail ih =>
    cases body' with
    | nil => exact absurd (List.cons.inj heq).1 hclosing
    | cons m' tail' =>
      obtain ⟨rfl, htails⟩ := List.cons.inj heq
      obtain ⟨rfl, rfl⟩ := ih (h'.of_cons hopening) htails
      exact ⟨rfl, rfl⟩
  | @group inner tail hinner htail ihinner ihtail =>
    cases body' with
    | nil => cases (List.cons.inj heq).1
    | cons m' tail' =>
      obtain ⟨rfl, hgroups⟩ := List.cons.inj heq
      obtain ⟨inner', rest'', rfl, hinner', hrest''⟩ := h'.of_opening
      simp only [List.append_eq, List.append_assoc, List.cons_append] at hgroups
      obtain ⟨rfl, htails⟩ := ihinner hinner' hgroups
      obtain ⟨rfl, rfl⟩ := ihtail hrest'' htails
      exact ⟨rfl, rfl⟩

/-! ### Counting brackets -/

/-- Whether every bracket has its partner, with `depth` groups open before the symbols. -/
def pairsUp : Nat → List Symbol → Bool
  | depth, [] => depth == 0
  | depth, .opening :: rest => pairsUp (depth + 1) rest
  | 0, .closing :: _ => false
  | depth + 1, .closing :: rest => pairsUp depth rest
  | depth, _ :: rest => pairsUp depth rest

theorem pairsUp_cons {m : Symbol} (hopening : m ≠ .opening) (hclosing : m ≠ .closing)
    (depth : Nat) (rest : List Symbol) : pairsUp depth (m :: rest) = pairsUp depth rest := by
  cases m with
  | opening => exact absurd rfl hopening
  | closing => exact absurd rfl hclosing
  | _ => cases depth <;> rfl

theorem Nested.pairsUp_append {t : List Symbol} (h : Nested t) (depth : Nat)
    (rest : List Symbol) : pairsUp depth (t ++ rest) = pairsUp depth rest := by
  induction h generalizing depth rest with
  | nil => rfl
  | cons hopening hclosing _ ih => rw [List.cons_append, pairsUp_cons hopening hclosing, ih]
  | group _ _ ihbody iht =>
    rw [List.cons_append, List.append_assoc, List.cons_append, pairsUp, ihbody, pairsUp, iht]

/-- The bracket that closes the innermost open group. -/
theorem exists_closing_of_pairsUp {t : List Symbol} {depth : Nat}
    (h : pairsUp (depth + 1) t = true) :
    ∃ body rest, t = body ++ .closing :: rest ∧ Nested body ∧ pairsUp depth rest = true := by
  induction hlength : t.length using Nat.strong_induction_on generalizing t depth with
  | h n ih =>
    subst hlength
    cases t with
    | nil => cases h
    | cons m t =>
      by_cases hopening : m = .opening
      · subst hopening
        have hopen : pairsUp (depth + 1 + 1) t = true := h
        obtain ⟨body, tail, rfl, hbody, htail⟩ := ih t.length (Nat.lt_succ_self _) hopen rfl
        have hshort : tail.length < (Symbol.opening :: (body ++ .closing :: tail)).length := by
          simp only [List.length_cons, List.length_append]
          omega
        obtain ⟨body', rest, rfl, hbody', hrest⟩ := ih tail.length hshort htail rfl
        refine ⟨.opening :: (body ++ .closing :: body'), rest, ?_, .group hbody hbody', hrest⟩
        simp only [List.cons_append, List.append_assoc]
      · by_cases hclosing : m = .closing
        · subst hclosing
          exact ⟨[], t, rfl, .nil, h⟩
        · rw [pairsUp_cons hopening hclosing] at h
          obtain ⟨body, rest, rfl, hbody, hrest⟩ := ih t.length (Nat.lt_succ_self _) h rfl
          exact ⟨m :: body, rest, rfl, .cons hopening hclosing hbody, hrest⟩

theorem nested_of_pairsUp {t : List Symbol} (h : pairsUp 0 t = true) : Nested t := by
  induction hlength : t.length using Nat.strong_induction_on generalizing t with
  | h n ih =>
    subst hlength
    cases t with
    | nil => exact .nil
    | cons m t =>
      by_cases hopening : m = .opening
      · subst hopening
        obtain ⟨body, rest, rfl, hbody, hrest⟩ := exists_closing_of_pairsUp h
        have hshort : rest.length < (Symbol.opening :: (body ++ .closing :: rest)).length := by
          simp only [List.length_cons, List.length_append]
          omega
        exact .group hbody (ih rest.length hshort hrest rfl)
      · by_cases hclosing : m = .closing
        · subst hclosing
          cases h
        · rw [pairsUp_cons hopening hclosing] at h
          exact .cons hopening hclosing (ih t.length (Nat.lt_succ_self _) h rfl)

/-- Brackets pair up exactly if counting them from left to right finds it so. -/
theorem nested_iff_pairsUp {t : List Symbol} : Nested t ↔ pairsUp 0 t = true := by
  constructor
  · intro h
    rw [← List.append_nil t, h.pairsUp_append]
    rfl
  · exact nested_of_pairsUp

instance (t : List Symbol) : Decidable (Nested t) := decidable_of_iff _ nested_iff_pairsUp.symm

/-! ## The first alternative, symbol by symbol -/

variable (flags : Flags)

/-- The texts that the first alternative stands for. -/
def first (symbols : List Symbol) : Language Char := {s | Leading flags symbols s}

/-- The texts that the other alternatives stand for. -/
def later (symbols : List Symbol) : Language Char :=
  {s | ∃ before alternative, Nested before ∧ symbols = before ++ .bar :: alternative ∧
    Leading flags alternative s}

variable {flags}

theorem stands_iff {symbols : List Symbol} {s : List Char} :
    Stands flags symbols s ↔ s ∈ first flags symbols + later flags symbols := by
  rw [Language.mem_add]
  constructor
  · rintro ⟨alternative, rfl | ⟨before, hbefore, rfl⟩, hs⟩
    · exact .inl hs
    · exact .inr ⟨before, alternative, hbefore, rfl, hs⟩
  · rintro (hs | ⟨before, alternative, hbefore, rfl, hs⟩)
    · exact ⟨symbols, .inl rfl, hs⟩
    · exact ⟨alternative, .inr ⟨before, hbefore, rfl⟩, hs⟩

/-- Only a wildcard begins a run of wildcards. -/
theorem Runs.head {run rest tail : List Symbol} {s : List Char} {m : Symbol}
    (h : Runs flags run rest s) (hrun : run ≠ []) (heq : m :: tail = run ++ rest) :
    m.isWildcard = true := by
  cases run with
  | nil => exact absurd rfl hrun
  | cons m' run =>
    rw [(List.cons.inj heq).1]
    exact h.wild m' List.mem_cons_self

/-- Less text for the run without its first wildcard. -/
theorem Runs.tail {run rest : List Symbol} {s t : List Char} {m : Symbol}
    (h : Runs flags (m :: run) rest s) (hsub : ∀ d ∈ t, d ∈ s)
    (hroom : .star ∈ run ∨ t.length ≤ run.length) : Runs flags run rest t where
  wild := fun m hm => h.wild m (List.mem_cons_of_mem _ hm)
  ends := h.ends
  covers := fun d hd => h.covers d (hsub d hd)
  room := hroom

/-- One more wildcard before a run, and the characters that it covers before the text. -/
theorem Runs.cons {run rest : List Symbol} {s t : List Char} {m : Symbol}
    (h : Runs flags run rest t) (hm : m.isWildcard = true) (hs : ∀ d ∈ s, flags.Covers d)
    (hroom : .star ∈ m :: run ∨ (s ++ t).length ≤ (m :: run).length) :
    Runs flags (m :: run) rest (s ++ t) where
  wild := by
    intro m' hm'
    rcases List.mem_cons.1 hm' with rfl | hm'
    · exact hm
    · exact h.wild m' hm'
  ends := h.ends
  covers := by
    intro d hd
    rcases List.mem_append.1 hd with hd | hd
    · exact hs d hd
    · exact h.covers d hd
  room := hroom

theorem first_nil : first flags [] = 1 := by
  ext s
  constructor
  · intro h
    generalize hsymbols : ([] : List Symbol) = symbols at h
    cases h with
    | nil => rfl
    | wildcards hrun => exact absurd (List.append_eq_nil_iff.1 hsymbols.symm).1 hrun
    | _ => cases hsymbols
  · intro h
    rw [(Language.mem_one s).1 h]
    exact .nil

theorem first_bar (rest : List Symbol) : first flags (.bar :: rest) = 1 := by
  ext s
  constructor
  · intro h
    generalize hsymbols : Symbol.bar :: rest = symbols at h
    cases h with
    | bar => rfl
    | wildcards hrun hruns => exact absurd (hruns.head hrun hsymbols) (by decide)
    | _ => cases hsymbols
  · intro h
    rw [(Language.mem_one s).1 h]
    exact .bar rest

theorem first_plain (c : Char) (rest : List Symbol) :
    first flags (.plain c :: rest) = flags.mode.alike c * first flags rest := by
  ext s
  rw [Language.mem_mul]
  constructor
  · intro h
    generalize hsymbols : Symbol.plain c :: rest = symbols at h
    cases h with
    | @plain _ d _ s hd hs =>
      cases hsymbols
      exact ⟨[d], ⟨d, rfl, Flags.alike_iff.1 hd⟩, s, hs, rfl⟩
    | wildcards hrun hruns => exact absurd (hruns.head hrun hsymbols) Bool.false_ne_true
    | _ => cases hsymbols
  · rintro ⟨_, ⟨d, rfl, hd⟩, s, hs, rfl⟩
    exact .plain (Flags.alike_iff.2 hd) hs

theorem first_group {body : List Symbol} (hbody : Nested body) (rest : List Symbol) :
    first flags (.opening :: (body ++ .closing :: rest)) =
      (first flags body + later flags body) * first flags rest := by
  ext s
  rw [Language.mem_mul]
  constructor
  · intro h
    generalize hsymbols : Symbol.opening :: (body ++ .closing :: rest) = symbols at h
    cases h with
    | @group body' alternative _ s t hbody' halternative hs ht =>
      obtain ⟨rfl, rfl⟩ := hbody.append_closing_inj hbody' (List.cons.inj hsymbols).2
      exact ⟨s, stands_iff.1 ⟨alternative, halternative, hs⟩, t, ht, rfl⟩
    | wildcards hrun hruns => exact absurd (hruns.head hrun hsymbols) (by decide)
    | _ => cases hsymbols
  · rintro ⟨s, hs, t, ht, rfl⟩
    obtain ⟨alternative, halternative, hs⟩ := stands_iff.2 hs
    exact .group hbody halternative hs ht

/-! ### Wildcards -/

/-- Symbols begin with a run of wildcards, perhaps an empty one, to which a part of the text
belongs. -/
theorem leading_iff_exists_run {symbols : List Symbol} {s : List Char} :
    Leading flags symbols s ↔ ∃ run rest t u, symbols = run ++ rest ∧ s = t ++ u ∧
      Runs flags run rest t ∧ Leading flags rest u := by
  constructor
  · intro h
    have hnone : (∀ m ∈ symbols.head?, m.isWildcard = false) →
        ∃ run rest t u, symbols = run ++ rest ∧ s = t ++ u ∧ Runs flags run rest t ∧
          Leading flags rest u := by
      intro hends
      exact ⟨[], symbols, [], s, rfl, rfl, ⟨nofun, hends, nofun, .inr (Nat.zero_le 0)⟩, h⟩
    cases h with
    | wildcards hrun hruns hrest => exact ⟨_, _, _, _, rfl, rfl, hruns, hrest⟩
    | nil => exact hnone nofun
    | _ =>
      apply hnone
      intro m hm
      cases hm
      rfl
  · rintro ⟨run, rest, t, u, rfl, rfl, hruns, hrest⟩
    by_cases hrun : run = []
    · subst hrun
      have hlength : t.length ≤ 0 := hruns.room.resolve_left nofun
      rw [List.eq_nil_of_length_eq_zero (Nat.le_zero.1 hlength)]
      exact hrest
    · exact .wildcards hrun hruns hrest

/-- A wildcard and what it covers go before a run and its text. -/
theorem exists_run_of_leading_cons {m : Symbol} (hm : m.isWildcard = true) {rest : List Symbol}
    {s : List Char} (h : Leading flags (m :: rest) s) :
    ∃ run rest' t u, rest = run ++ rest' ∧ s = t ++ u ∧ Runs flags (m :: run) rest' t ∧
      Leading flags rest' u := by
  obtain ⟨run, rest', t, u, hrun, rfl, hruns, hu⟩ := leading_iff_exists_run.1 h
  cases run with
  | nil =>
    have hfalse := hruns.ends m (by rw [List.nil_append] at hrun; rw [← hrun]; rfl)
    rw [hm] at hfalse
    cases hfalse
  | cons m' run =>
    obtain ⟨rfl, rfl⟩ := List.cons.inj hrun
    exact ⟨run, rest', t, u, rfl, rfl, hruns, hu⟩

theorem first_star (rest : List Symbol) :
    first flags (.star :: rest) = flags.mode.covered * first flags rest := by
  ext s
  rw [Language.mem_mul]
  constructor
  · intro h
    obtain ⟨run, rest', t, u, rfl, rfl, hruns, hu⟩ := exists_run_of_leading_cons rfl h
    refine ⟨t, fun d hd => Flags.covers_iff.1 (hruns.covers d hd), u, ?_, rfl⟩
    have htail : Runs flags run rest' [] := hruns.tail nofun (.inr (Nat.zero_le _))
    exact leading_iff_exists_run.2 ⟨run, rest', [], u, rfl, rfl, htail, hu⟩
  · rintro ⟨a, ha, s, hs, rfl⟩
    obtain ⟨run, rest', t, u, rfl, rfl, hruns, hu⟩ := leading_iff_exists_run.1 hs
    have hcons : Runs flags (.star :: run) rest' (a ++ t) :=
      hruns.cons rfl (fun d hd => Flags.covers_iff.2 (ha d hd)) (.inl List.mem_cons_self)
    exact leading_iff_exists_run.2
      ⟨.star :: run, rest', a ++ t, u, rfl, (List.append_assoc a t u).symm, hcons, hu⟩

theorem first_question (rest : List Symbol) :
    first flags (.question :: rest) = flags.mode.optional * first flags rest := by
  ext s
  rw [Language.mem_mul]
  constructor
  · intro h
    obtain ⟨run, rest', t, u, rfl, rfl, hruns, hu⟩ := exists_run_of_leading_cons rfl h
    cases t with
    | nil =>
      have htail : Runs flags run rest' [] := hruns.tail nofun (.inr (Nat.zero_le _))
      refine ⟨[], Regex.nil_mem_optional _, u, ?_, rfl⟩
      exact leading_iff_exists_run.2 ⟨run, rest', [], u, rfl, rfl, htail, hu⟩
    | cons d t =>
      have hd := Flags.covers_iff.1 (hruns.covers d List.mem_cons_self)
      have hroom : .star ∈ run ∨ t.length ≤ run.length := by
        have hroom := hruns.room
        simp only [List.mem_cons, reduceCtorEq, false_or, List.length_cons] at hroom
        exact hroom.imp_right Nat.le_of_succ_le_succ
      have htail : Runs flags run rest' t :=
        hruns.tail (fun d' hd' => List.mem_cons_of_mem d hd') hroom
      refine ⟨[d], ⟨Nat.le_refl 1, by simpa using hd⟩, t ++ u, ?_, rfl⟩
      exact leading_iff_exists_run.2 ⟨run, rest', t, u, rfl, rfl, htail, hu⟩
  · rintro ⟨a, ⟨hlength, ha⟩, s, hs, rfl⟩
    obtain ⟨run, rest', t, u, rfl, rfl, hruns, hu⟩ := leading_iff_exists_run.1 hs
    have hroom : .star ∈ Symbol.question :: run ∨
        (a ++ t).length ≤ (Symbol.question :: run).length := by
      rcases hruns.room with hstar | hroom
      · exact .inl (List.mem_cons_of_mem _ hstar)
      · right
        rw [List.length_append, List.length_cons]
        omega
    have hcons : Runs flags (.question :: run) rest' (a ++ t) :=
      hruns.cons rfl (fun d hd => Flags.covers_iff.2 (ha d hd)) hroom
    exact leading_iff_exists_run.2
      ⟨.question :: run, rest', a ++ t, u, rfl, (List.append_assoc a t u).symm, hcons, hu⟩

/-! ## The other alternatives, symbol by symbol -/

theorem later_nil : later flags [] = 0 := by
  ext s
  constructor
  · rintro ⟨before, alternative, -, h, -⟩
    cases before <;> cases h
  · intro h
    exact absurd h (Language.notMem_zero s)

theorem later_cons {m : Symbol} (hopening : m ≠ .opening) (hclosing : m ≠ .closing)
    (hbar : m ≠ .bar) (rest : List Symbol) : later flags (m :: rest) = later flags rest := by
  ext s
  constructor
  · rintro ⟨before, alternative, hbefore, h, hs⟩
    cases before with
    | nil => exact absurd (List.cons.inj h).1 hbar
    | cons m' before =>
      obtain ⟨rfl, rfl⟩ := List.cons.inj h
      exact ⟨before, alternative, hbefore.of_cons hopening, rfl, hs⟩
  · rintro ⟨before, alternative, hbefore, rfl, hs⟩
    exact ⟨m :: before, alternative, .cons hopening hclosing hbefore, rfl, hs⟩

theorem later_bar (rest : List Symbol) :
    later flags (.bar :: rest) = first flags rest + later flags rest := by
  ext s
  rw [Language.mem_add]
  constructor
  · rintro ⟨before, alternative, hbefore, h, hs⟩
    cases before with
    | nil =>
      rw [(List.cons.inj h).2]
      exact .inl hs
    | cons m before =>
      obtain ⟨rfl, rfl⟩ := List.cons.inj h
      exact .inr ⟨before, alternative, hbefore.of_cons (by decide), rfl, hs⟩
  · rintro (hs | ⟨before, alternative, hbefore, rfl, hs⟩)
    · exact ⟨[], rest, .nil, rfl, hs⟩
    · exact ⟨.bar :: before, alternative, .cons nofun nofun hbefore, rfl, hs⟩

theorem later_group {body : List Symbol} (hbody : Nested body) (rest : List Symbol) :
    later flags (.opening :: (body ++ .closing :: rest)) = later flags rest := by
  ext s
  constructor
  · rintro ⟨before, alternative, hbefore, h, hs⟩
    cases before with
    | nil => cases (List.cons.inj h).1
    | cons m before =>
      obtain ⟨rfl, hgroup⟩ := List.cons.inj h
      obtain ⟨body', before', rfl, hbody', hbefore'⟩ := hbefore.of_opening
      simp only [List.append_eq, List.append_assoc, List.cons_append] at hgroup
      obtain ⟨rfl, rfl⟩ := hbody.append_closing_inj hbody' hgroup
      exact ⟨before', alternative, hbefore', rfl, hs⟩
  · rintro ⟨before, alternative, hbefore, rfl, hs⟩
    refine ⟨.opening :: (body ++ .closing :: before), alternative, .group hbody hbefore, ?_, hs⟩
    simp only [List.append_assoc, List.cons_append]

end Glob

end PathQuery
