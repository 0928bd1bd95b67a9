import Mathlib.Data.List.TakeWhile
import PathQuery.Proofs.Pattern.Assembly

/-!
# Slots of token text

Token text without brackets and bars is a list of slots: characters that stand for themselves, and
groups for its runs of wildcards (`slots`). Captures fill the slots of a text if they give the text
in the place of the groups (`Fills`). The lexemes of the token's text are those of its slots
(`lexemesOf_eq_flatMap_slots`), so its expression is the sequence of their expressions
(`assemble_anchored_slots`).
-/

namespace PathQuery.Glob

open Regex

/-! ## Slots -/

/-- A group for wildcards. -/
inductive Wildcard
  /-- For at most one character. -/
  | one
  /-- For any number of characters. -/
  | run
  deriving DecidableEq

inductive Slot
  /-- A character that stands for itself. -/
  | text (c : Char)
  | group (wildcard : Wildcard)
  deriving DecidableEq

/-- The groups of a run of wildcards: one for each question mark before its first star, and one for
the rest if it has a star. -/
def groups (run : List Symbol) : List Wildcard :=
  (run.takeWhile (· = .question)).map (fun _ => .one) ++ if .star ∈ run then [.run] else []

/-- The slots of symbols, in which a run of wildcards goes on as far as it can. Brackets and bars
have no slot. -/
def slots : List Symbol → List Slot
  | [] => []
  | .plain c :: rest => .text c :: slots rest
  | m :: rest =>
    if m.isWildcard then
      (groups (m :: rest.takeWhile Symbol.isWildcard)).map .group ++
        slots (rest.dropWhile Symbol.isWildcard)
    else slots rest
termination_by symbols => symbols.length
decreasing_by
  · exact Nat.lt_succ_self _
  · exact Nat.lt_succ_of_le (List.length_dropWhile_le _ _)
  · exact Nat.lt_succ_self _

/-- The texts that a group can hold. -/
def Wildcard.Admits (flags : Flags) : Wildcard → List Char → Prop
  | one, s => s.length ≤ 1 ∧ ∀ d ∈ s, flags.Covers d
  | run, s => ∀ d ∈ s, flags.Covers d

/-- Captures, put in the place of the groups one after the other, give a text. The characters
between them are compared as the flags have it. -/
inductive Fills (flags : Flags) : List Slot → List (List Char) → List Char → Prop
  | nil : Fills flags [] [] []
  | text {c d : Char} {slots : List Slot} {captures : List (List Char)} {s : List Char} :
      flags.Alike c d → Fills flags slots captures s →
      Fills flags (.text c :: slots) captures (d :: s)
  | group {wildcard : Wildcard} {slots : List Slot} {captures : List (List Char)}
      {capture s : List Char} :
      wildcard.Admits flags capture → Fills flags slots captures s →
      Fills flags (.group wildcard :: slots) (capture :: captures) (capture ++ s)

/-- Captures that fill the slots and, compared from left to right with all others that do, hold the
longer text where they first differ. -/
structure Greediest (flags : Flags) (slots : List Slot) (captures : List (List Char))
    (s : List Char) : Prop where
  fills : Fills flags slots captures s
  greedy : ∀ other, Fills flags slots other s →
    other = captures ∨ other.map List.length < captures.map List.length

theorem Wildcard.Admits.covers {flags : Flags} {wildcard : Wildcard} {s : List Char}
    (h : wildcard.Admits flags s) : ∀ d ∈ s, flags.Covers d := by
  cases wildcard with
  | one => exact h.2
  | run => exact h

theorem Fills.covers {flags : Flags} {slots : List Slot} {captures : List (List Char)}
    {s : List Char} (h : Fills flags slots captures s) :
    ∀ capture ∈ captures, ∀ d ∈ capture, flags.Covers d := by
  induction h with
  | nil => exact List.forall_mem_nil _
  | text _ _ ih => exact ih
  | group hcapture _ ih => exact List.forall_mem_cons.2 ⟨hcapture.covers, ih⟩

/-! ## The lexemes of slots -/

def Wildcard.lexeme : Wildcard → Lexeme
  | one => .anyOne
  | run => .anyRun

def Slot.lexemes : Slot → List Lexeme
  | text c => [.char c]
  | group wildcard => [.groupStart, wildcard.lexeme, .groupEnd]

@[simp] theorem groups_question (run : List Symbol) :
    groups (.question :: run) = .one :: groups run := by
  simp [groups]

@[simp] theorem groups_star (run : List Symbol) : groups (.star :: run) = [.run] := by
  simp [groups]

theorem lexemesOf_true {rest : List Symbol} (h : ∀ m ∈ rest.head?, m.isWildcard = false) :
    lexemesOf true rest = lexemesOf false rest := by
  match rest, h with
  | [], _ => rfl
  | .plain _ :: _, _ => rfl
  | .opening :: _, _ => rfl
  | .closing :: _, _ => rfl
  | .bar :: _, _ => rfl
  | .star :: _, h => cases h .star rfl
  | .question :: _, h => cases h .question rfl

/-- A star stands for all wildcards of the run behind it. -/
theorem lexemesOf_true_append {run rest : List Symbol} (hrun : ∀ m ∈ run, m.isWildcard = true)
    (hrest : ∀ m ∈ rest.head?, m.isWildcard = false) :
    lexemesOf true (run ++ rest) = lexemesOf false rest := by
  induction run with
  | nil => exact lexemesOf_true hrest
  | cons m run ih =>
    obtain ⟨hm, hwild⟩ := List.forall_mem_cons.1 hrun
    cases m with
    | star => exact ih hwild
    | question => exact ih hwild
    | _ => cases hm

theorem lexemesOf_append {run rest : List Symbol} (hrun : ∀ m ∈ run, m.isWildcard = true)
    (hrest : ∀ m ∈ rest.head?, m.isWildcard = false) :
    lexemesOf false (run ++ rest) =
      ((groups run).map Slot.group).flatMap Slot.lexemes ++ lexemesOf false rest := by
  induction run with
  | nil => rfl
  | cons m run ih =>
    obtain ⟨hm, hwild⟩ := List.forall_mem_cons.1 hrun
    cases m with
    | star =>
      rw [groups_star, ← lexemesOf_true_append hwild hrest]
      rfl
    | question =>
      rw [groups_question, List.map_cons, List.flatMap_cons, List.append_assoc, ← ih hwild]
      rfl
    | _ => cases hm

/-- The lexemes of symbols without brackets and bars are those of their slots. -/
theorem lexemesOf_eq_flatMap_slots {symbols : List Symbol}
    (h : ∀ m ∈ symbols, m ∉ [Symbol.opening, .closing, .bar]) :
    lexemesOf false symbols = (slots symbols).flatMap Slot.lexemes := by
  fun_induction slots symbols with
  | case1 => rfl
  | case2 c rest ih =>
    rw [lexemesOf, ih (List.forall_mem_cons.1 h).2]
    rfl
  | case3 m rest hplain hm ih =>
    have hrest := (List.forall_mem_cons.1 h).2
    have hrun : ∀ m' ∈ m :: rest.takeWhile Symbol.isWildcard, m'.isWildcard = true :=
      List.forall_mem_cons.2 ⟨hm, fun m' hm' => List.mem_takeWhile_imp hm'⟩
    have hends : ∀ m' ∈ (rest.dropWhile Symbol.isWildcard).head?, m'.isWildcard = false := by
      intro m' hm'
      have := List.head?_dropWhile_not Symbol.isWildcard rest
      rw [Option.mem_def.1 hm'] at this
      simpa using this
    rw [List.flatMap_append,
      ← ih fun m' hm' => hrest m' ((List.dropWhile_sublist _).subset hm'),
      ← lexemesOf_append hrun hends, List.cons_append, List.takeWhile_append_dropWhile]
  | case4 m rest hplain hm ih =>
    have hmark := h m List.mem_cons_self
    cases m with
    | plain c => exact absurd rfl (hplain c)
    | star => exact absurd rfl hm
    | question => exact absurd rfl hm
    | _ => simp at hmark

/-! ## The expressions of slots -/

def Wildcard.expression : Wildcard → Regex
  | one => anyOne
  | run => anyRun

def Slot.expression : Slot → Regex
  | text c => .char c
  | group wildcard => .group wildcard.expression

theorem readsAs_slot (slot : Slot) : ReadsAs slot.lexemes slot.expression := by
  intro position level outer
  cases slot with
  | text c => exact ⟨_, fun _ => rfl⟩
  | group wildcard => cases wildcard <;> exact ⟨_, fun _ => rfl⟩

/-- Token text without brackets and bars is the expression for whole texts that its slots have one
after the other. -/
theorem assemble_anchored_slots {text : List Char}
    (h : ∀ m ∈ symbols text, m ∉ [Symbol.opening, .closing, .bar]) :
    assemble (anchored (lexemes text)) 0 {} [] =
      .ok (whole (sequence ((slots (symbols text)).map Slot.expression))) := by
  rw [lexemes, lexemesFrom_eq, lexemesOf_eq_flatMap_slots h]
  exact assemble_anchored_flatMap readsAs_slot _

end PathQuery.Glob
