import PathQuery.Proofs.Pattern.Compile
import PathQuery.Proofs.Pattern.Meaning

/-!
# How token text is read

The lexemes of token text follow its symbols (`lexemesFrom_eq`). Symbols whose brackets pair up
leave the open groups as they were, and the level that they are read on has their texts after the
ones that it had before (`Nested.reads`). So the expression of a whole token stands for the texts
of the token's alternatives (`assemble_anchored_nested`).
-/

namespace PathQuery

/-! ## The language of a level -/

namespace Regex

variable (mode : Mode)

theorem language_sequence (es : List Regex) :
    (sequence es).language mode = (es.map (language mode)).prod := by
  match es with
  | [] => rfl
  | [e] => exact (mul_one _).symm
  | e :: d :: es =>
    rw [List.map_cons, List.prod_cons, ← language_sequence (d :: es)]
    rfl

theorem language_alternation (e : Regex) (es : List Regex) :
    (alternation (e :: es)).language mode = ((e :: es).map (language mode)).sum := by
  match es with
  | [] => exact (add_zero _).symm
  | d :: es =>
    rw [List.map_cons, List.sum_cons, ← language_alternation d es]
    rfl

theorem inner_sequence {es : List Regex} (h : ∀ e ∈ es, e.Inner) : (sequence es).Inner := by
  match es with
  | [] => trivial
  | [e] => exact h e List.mem_cons_self
  | e :: d :: es =>
    exact ⟨h e List.mem_cons_self, inner_sequence fun e' he' => h e' (List.mem_cons_of_mem e he')⟩

theorem inner_alternation {es : List Regex} (h : ∀ e ∈ es, e.Inner) : (alternation es).Inner := by
  match es with
  | [] => trivial
  | [e] => exact h e List.mem_cons_self
  | e :: d :: es =>
    exact ⟨h e List.mem_cons_self,
      inner_alternation fun e' he' => h e' (List.mem_cons_of_mem e he')⟩

namespace Level

/-- The texts of the finished alternatives. -/
def done (level : Level) : Language Char := (level.alternatives.map (language mode)).sum

/-- The texts of the alternative that is being read. -/
def current (level : Level) : Language Char := (level.items.reverse.map (language mode)).prod

/-- The level holds no marks of the ends. -/
structure Inner (level : Level) : Prop where
  alternatives : ∀ e ∈ level.alternatives, e.Inner
  items : ∀ e ∈ level.items, e.Inner

variable (level : Level)

theorem done_push (e : Regex) : (level.push e).done mode = level.done mode := rfl

theorem current_push (e : Regex) :
    (level.push e).current mode = level.current mode * e.language mode := by
  unfold current push
  rw [List.reverse_cons, List.map_append, List.prod_append, List.map_singleton,
    List.prod_singleton]

theorem done_next : level.next.done mode = level.done mode + level.current mode := by
  unfold done current next
  rw [List.map_cons, List.sum_cons, language_sequence, add_comm]

theorem current_next : level.next.current mode = 1 := rfl

/-- A finished level stands for the texts of its alternatives, the last one included. -/
theorem language_finish :
    level.finish.language mode = level.done mode + level.current mode := by
  have hne : level.next.alternatives.reverse ≠ [] := by
    rw [next, List.reverse_cons]
    exact List.append_ne_nil_of_right_ne_nil _ (List.cons_ne_nil _ _)
  obtain ⟨e, es, hes⟩ := List.exists_cons_of_ne_nil hne
  rw [← done_next, finish, hes, language_alternation, ← hes, List.map_reverse, List.sum_reverse]
  rfl

/-- A new level has the one text of an empty sequence. -/
theorem done_add_current_mul_empty (l : Language Char) :
    done mode {} + current mode {} * l = l :=
  (zero_add _).trans (one_mul l)

variable {mode level}

theorem Inner.push (h : level.Inner) {e : Regex} (he : e.Inner) : (level.push e).Inner where
  alternatives := h.alternatives
  items := by
    intro e' he'
    rcases List.mem_cons.1 he' with rfl | he'
    · exact he
    · exact h.items e' he'

theorem Inner.next (h : level.Inner) : level.next.Inner where
  alternatives := by
    intro e he
    rcases List.mem_cons.1 he with rfl | he
    · exact inner_sequence fun e he => h.items e (List.mem_reverse.1 he)
    · exact h.alternatives e he
  items := nofun

theorem Inner.finish (h : level.Inner) : level.finish.Inner :=
  inner_alternation fun e he => h.next.alternatives e (List.mem_reverse.1 he)

end Level

end Regex

namespace Glob

open Regex

/-! ## The lexemes of symbols -/

/-- The lexemes of symbols; `covered` tells that a star before them stands for the wildcards that
come next. -/
def lexemesOf (covered : Bool) : List Symbol → List Lexeme
  | [] => []
  | .plain c :: rest => .char c :: lexemesOf false rest
  | .opening :: rest => .groupStart :: lexemesOf false rest
  | .closing :: rest => .groupEnd :: lexemesOf false rest
  | .bar :: rest => .bar :: lexemesOf false rest
  | .star :: rest =>
    if covered then lexemesOf true rest
    else [.groupStart, .anyRun, .groupEnd] ++ lexemesOf true rest
  | .question :: rest =>
    if covered then lexemesOf true rest
    else [.groupStart, .anyOne, .groupEnd] ++ lexemesOf false rest

theorem symbols_cons {c : Char} (h : c ≠ '\\') (rest : List Char) :
    symbols (c :: rest) = symbol c :: symbols rest := by
  rw [symbols]
  · exact fun heq _ => h heq
  · exact fun _ _ heq _ => h heq

/-- A character that neither ends the text as a backslash nor stands as one before another is no
backslash. -/
theorem ne_backslash {c : Char} {rest : List Char} (hend : c = '\\' → rest = [] → False)
    (hescape : ∀ d tail, c = '\\' → rest = d :: tail → False) : c ≠ '\\' := by
  intro hback
  cases rest with
  | nil => exact hend hback rfl
  | cons d tail => exact hescape d tail hback rfl

theorem eq_of_isWildcard {c : Char} (h : isWildcard c = true) : c = '*' ∨ c = '?' := by
  rw [isWildcard, Bool.or_eq_true, beq_iff_eq, beq_iff_eq] at h
  exact h

theorem lexemesFrom_eq (covered : Bool) (text : List Char) :
    lexemesFrom covered text = lexemesOf covered (symbols text) := by
  fun_induction lexemesFrom covered text with
  | case1 => rfl
  | case2 => rfl
  | case3 covered c rest ih => rw [ih]; rfl
  | case4 c rest _ _ hwild ih =>
    rcases eq_of_isWildcard hwild with rfl | rfl <;> exact ih
  | case5 covered c rest _ _ _ hcovered hstar ih =>
    rw [beq_iff_eq.1 hstar, symbols_cons (by decide), ih]
    exact (if_neg hcovered).symm
  | case6 covered c rest _ _ hwild hcovered hstar ih =>
    have hquestion : c = '?' :=
      (eq_of_isWildcard hwild).resolve_left fun heq => hstar (beq_iff_eq.2 heq)
    rw [hquestion, symbols_cons (by decide), ih]
    exact (if_neg hcovered).symm
  | case7 covered c rest hend hescape hwild lexeme ih =>
    rw [symbols_cons (ne_backslash hend hescape), ih]
    unfold lexeme symbol
    split
    · rfl
    · rfl
    · rfl
    · rename_i hopening hclosing hbar
      split
      · exact absurd rfl hwild
      · exact absurd rfl hwild
      · exact absurd rfl hopening
      · exact absurd rfl hclosing
      · exact absurd rfl hbar
      · rfl

/-! ## Reading symbols -/

section Reading

variable {flags : Flags}

theorem covered_mul_covered (mode : Mode) : mode.covered * mode.covered = mode.covered :=
  covered_mul mode (nil_mem_covered mode) fun _ hs => hs

theorem covered_mul_optional (mode : Mode) : mode.covered * mode.optional = mode.covered :=
  covered_mul mode (nil_mem_optional mode) fun _ hs => hs.2

/-- A star before the symbols has run over all that wildcards can cover. -/
def Settled (mode : Mode) (covered : Bool) (level : Level) : Prop :=
  covered = true → level.current mode * mode.covered = level.current mode

theorem settled_false {mode : Mode} (level : Level) : Settled mode false level :=
  fun hfalse => nomatch hfalse

theorem Settled.mul_optional {mode : Mode} {level : Level} (h : Settled mode true level) :
    level.current mode * mode.optional = level.current mode := by
  have hcovered := h rfl
  calc level.current mode * mode.optional
      = level.current mode * mode.covered * mode.optional := by rw [hcovered]
    _ = level.current mode * (mode.covered * mode.optional) := mul_assoc ..
    _ = level.current mode := by rw [covered_mul_optional, hcovered]

/-- Reading goes on behind the symbols with the same open groups and on a level that has their
texts. -/
def Reads (flags : Flags) (t : List Symbol) : Prop :=
  ∀ (rest : List Symbol) (tail : List Lexeme) (covered : Bool) (position : Nat) (level : Level)
    (outer : List OpenGroup), level.Inner → Settled flags.mode covered level →
    ∃ covered' position' level',
      assemble (lexemesOf covered (t ++ rest) ++ tail) position level outer =
        assemble (lexemesOf covered' rest ++ tail) position' level' outer ∧
      level'.Inner ∧
      level'.done flags.mode + level'.current flags.mode =
        level.done flags.mode + level.current flags.mode * first flags t + later flags t

theorem reads_nil : Reads flags [] := by
  intro rest tail covered position level outer hlevel _
  refine ⟨covered, position, level, rfl, hlevel, ?_⟩
  rw [first_nil, later_nil, mul_one, add_zero]

variable {t : List Symbol}

/-- A symbol that leads to a level with the texts that it adds, from which reading goes on. -/
theorem Reads.cons {m : Symbol} (h : Reads flags t)
    (hstep : ∀ covered position level, level.Inner → Settled flags.mode covered level →
      ∃ covered' position' level', level'.Inner ∧ Settled flags.mode covered' level' ∧
        (∀ rest tail outer,
          assemble (lexemesOf covered (m :: rest) ++ tail) position level outer =
            assemble (lexemesOf covered' rest ++ tail) position' level' outer) ∧
        level'.done flags.mode + level'.current flags.mode * first flags t + later flags t =
          level.done flags.mode + level.current flags.mode * first flags (m :: t) +
            later flags (m :: t)) :
    Reads flags (m :: t) := by
  intro rest tail covered position level outer hlevel hcovered
  obtain ⟨coveredNext, positionNext, next, hinner, hsettled, hread, htexts⟩ :=
    hstep covered position level hlevel hcovered
  obtain ⟨covered', position', level', hread', hinner', htexts'⟩ :=
    h rest tail coveredNext positionNext next outer hinner hsettled
  exact ⟨covered', position', level', (hread _ _ _).trans hread', hinner', htexts'.trans htexts⟩

theorem Reads.plain (h : Reads flags t) (c : Char) : Reads flags (.plain c :: t) := by
  apply h.cons
  intro covered position level hlevel _
  refine ⟨false, position + (Lexeme.char c).spell.length, level.push (char c),
    hlevel.push trivial, settled_false _, fun _ _ _ => rfl, ?_⟩
  have hlater : later flags (.plain c :: t) = later flags t :=
    @later_cons flags (.plain c) nofun nofun nofun t
  have hchar : (char c).language flags.mode = flags.mode.alike c := rfl
  rw [Level.done_push, Level.current_push, hchar, first_plain, hlater, mul_assoc]

theorem Reads.bar (h : Reads flags t) : Reads flags (.bar :: t) := by
  apply h.cons
  intro covered position level hlevel _
  refine ⟨false, position + Lexeme.bar.spell.length, level.next, hlevel.next, settled_false _,
    fun _ _ _ => rfl, ?_⟩
  rw [Level.done_next, Level.current_next, first_bar, later_bar, one_mul, mul_one, add_assoc]

/-- A wildcard behind a star that covers it adds nothing, else it is a group of its own. -/
theorem Reads.star (h : Reads flags t) : Reads flags (.star :: t) := by
  have hlater : later flags (.star :: t) = later flags t :=
    @later_cons flags .star nofun nofun nofun t
  apply h.cons
  intro covered position level hlevel hcovered
  cases covered with
  | true =>
    refine ⟨true, position, level, hlevel, hcovered, fun _ _ _ => rfl, ?_⟩
    rw [first_star, hlater, ← mul_assoc, hcovered rfl]
  | false =>
    have hrun : (Regex.group anyRun).language flags.mode = flags.mode.covered := rfl
    have hsettled : Settled flags.mode true (level.push (Regex.group anyRun)) := by
      intro _
      rw [Level.current_push, hrun, mul_assoc, covered_mul_covered]
    refine ⟨true, _, level.push (Regex.group anyRun), hlevel.push trivial, hsettled,
      fun _ _ _ => rfl, ?_⟩
    rw [Level.done_push, Level.current_push, hrun, first_star, hlater, mul_assoc]

theorem Reads.question (h : Reads flags t) : Reads flags (.question :: t) := by
  have hlater : later flags (.question :: t) = later flags t :=
    @later_cons flags .question nofun nofun nofun t
  apply h.cons
  intro covered position level hlevel hcovered
  cases covered with
  | true =>
    refine ⟨true, position, level, hlevel, hcovered, fun _ _ _ => rfl, ?_⟩
    rw [first_question, hlater, ← mul_assoc, hcovered.mul_optional]
  | false =>
    have hone : (Regex.group anyOne).language flags.mode = flags.mode.optional := rfl
    refine ⟨false, _, level.push (Regex.group anyOne), hlevel.push trivial, settled_false _,
      fun _ _ _ => rfl, ?_⟩
    rw [Level.done_push, Level.current_push, hone, first_question, hlater, mul_assoc]

/-- The body of a group is read on a level of its own, which the closing bracket finishes. -/
theorem Reads.group {body : List Symbol} (hnested : Nested body) (hbody : Reads flags body)
    (h : Reads flags t) : Reads flags (.opening :: (body ++ .closing :: t)) := by
  intro rest tail covered position level outer hlevel _
  obtain ⟨inside, closing, last, hread, hinner, htexts⟩ :=
    hbody (.closing :: (t ++ rest)) tail false (position + Lexeme.groupStart.spell.length) {}
      (⟨true, position, level⟩ :: outer) ⟨nofun, nofun⟩ (settled_false _)
  obtain ⟨covered', position', level', hread', hinner', htexts'⟩ :=
    h rest tail false (closing + Lexeme.groupEnd.spell.length)
      (level.push (Regex.group last.finish)) outer (hlevel.push hinner.finish)
      (settled_false _)
  have hgroup : (Regex.group last.finish).language flags.mode =
      first flags body + later flags body := by
    rw [language, Level.language_finish, htexts, Level.done_add_current_mul_empty]
  refine ⟨covered', position', level', ?_, hinner', ?_⟩
  · rw [List.cons_append, List.append_assoc, List.cons_append]
    exact hread.trans hread'
  · rw [htexts', Level.done_push, Level.current_push, hgroup, first_group hnested,
      later_group hnested, mul_assoc]

theorem Nested.reads (h : Nested t) : Reads flags t := by
  induction h with
  | nil => exact reads_nil
  | @cons m t hopening hclosing ht ih =>
    cases m with
    | opening => exact absurd rfl hopening
    | closing => exact absurd rfl hclosing
    | plain c => exact ih.plain c
    | bar => exact ih.bar
    | star => exact ih.star
    | question => exact ih.question
  | group hbody ht ihbody iht => exact ihbody.group hbody iht

/-- Token text whose brackets pair up is an expression for whole texts, which stands for the texts
of its alternatives. -/
theorem assemble_anchored_nested (flags : Flags) {text : List Char} (h : Nested (symbols text)) :
    ∃ body, assemble (anchored (lexemes text)) 0 {} [] = .ok (whole body) ∧ body.Inner ∧
      ∀ s, s ∈ body.language flags.mode ↔ Stands flags (symbols text) s := by
  obtain ⟨_, _, level, hread, hinner, htexts⟩ :=
    @Nested.reads flags _ h [] [.groupEnd, .textEnd] false
      (0 + Lexeme.textStart.spell.length + Lexeme.plainStart.spell.length) {}
      [⟨false, 0 + Lexeme.textStart.spell.length, ⟨[], [textStart]⟩⟩] ⟨nofun, nofun⟩
      (settled_false _)
  refine ⟨level.finish, ?_, hinner.finish, ?_⟩
  · rw [List.append_nil, ← lexemesFrom_eq] at hread
    exact hread
  · intro s
    rw [Level.language_finish, htexts, Level.done_add_current_mul_empty, stands_iff]

end Reading

end Glob

end PathQuery
