import PathQuery.Proofs.Matcher.Outcomes
import PathQuery.Proofs.Path.Suffix
import PathQuery.Proofs.Pattern.FlagSets
import PathQuery.Proofs.Query.Shape
import PathQuery.Proofs.Query.Twins

/-!
# One path under two sets of flags

Adding the flags written in a path keeps what is common to two sets of base flags
(`addFlags_le_addFlags`, `mode_addFlags`), so two chains of one path are related pattern by pattern
(`tokensAgree`). Base flags that differ in nothing but whether expressions have layout make no
difference, unset flags included, for which texts are compared and no expressions are compiled:
the chains are twins and find the same answers (`find_of_extended`).
-/

namespace PathQuery

/-! ## Flags written in a path -/

namespace Path

variable {a b : Flags} (letters : List Char)

theorem addFlags_le_addFlags (h : a ≤ b) : addFlags a letters ≤ addFlags b letters := by
  rw [addFlags_eq_union, addFlags_eq_union]
  exact Flags.union_le_union h _

theorem mode_addFlags (h : a.mode = b.mode) :
    (addFlags a letters).mode = (addFlags b letters).mode := by
  rw [addFlags_eq_union, addFlags_eq_union]
  exact Flags.mode_union h _

end Path

/-! ## Two chains of one path -/

namespace Matcher

variable {R : Pattern → Pattern → Prop} {flags flags' : Option Flags}

/-- Tokens agree up to a relation that holds of each pattern and itself, and of any two that one
expression compiles to. All of these are read from their sources. -/
theorem tokensAgree [Regex.Engine] (hrefl : ∀ p : Pattern, p.FromSource → R p p)
    (h : ∀ {e p q}, p.Expresses e (flags.getD .empty) → q.Expresses e (flags'.getD .empty) →
      p.FromSource → R p q) :
    TokensAgree R flags flags' := by
  intro token hwritten
  cases hwritten with
  | any => exact .ok (hrefl _ nofun)
  | parent => exact .ok (hrefl _ nofun)
  | text s =>
    unfold Pattern.ofToken
    dsimp only
    obtain ⟨p, hsource, hp⟩ | ⟨error, herror⟩ | ⟨e, he⟩ := Pattern.ofText_cases s
    · rw [hp, hp]
      exact .ok (hrefl p hsource)
    · rw [herror, herror]
      exact .error error
    · obtain ⟨p, hp, hexpresses⟩ | ⟨error, herror, hlarge⟩ := he.ofText flags
      · obtain ⟨q, hq, hexpresses'⟩ | ⟨error, herror, hlarge⟩ := he.ofText flags'
        · rw [hp, hq]
          exact .ok (h hexpresses hexpresses' (hexpresses.fromSource he.source))
        · rw [herror]
          exact .right _ hlarge
      · rw [herror]
        exact .left _ hlarge

theorem tokensAgree_fromSource [Regex.Engine] (flags : Option Flags) :
    TokensAgree (fun p _ => p.FromSource) flags flags :=
  tokensAgree (fun _ hsource => hsource) fun _ _ hsource => hsource

theorem tokensAgree_agrees [Regex.Engine]
    (h : (flags.getD .empty).mode = (flags'.getD .empty).mode) :
    TokensAgree Pattern.Agrees flags flags' :=
  tokensAgree (fun p _ => .refl p) fun hp hq _ => hp.agrees hq h

theorem tokensAgree_widens [Regex.Engine] (h : flags.getD .empty ≤ flags'.getD .empty) :
    TokensAgree Pattern.Widens flags flags' :=
  tokensAgree (fun p _ => .refl p) fun hp hq _ => hp.widens hq h

theorem test_of_agrees {p q : Option Pattern} (h : Option.Rel Pattern.Agrees p q)
    {subject : Subject} (hsubject : ∀ other, subject ≠ .pattern other) :
    test p subject = test q subject := by
  cases h with
  | none => rfl
  | some hagrees => exact hagrees.captures? hsubject

/-- Matchers whose patterns accept the same make no difference. -/
theorem Related.twins {α : Type} [Tree α] {m n : Matcher} (h : Related Pattern.Agrees m n) :
    m.Twins (fun a b : α => a = b) n where
  isParent := h.isParent_eq fun hagrees => hagrees.isParent
  isNone := h.isNone_eq
  recursive := h.recursive
  testKey _ := test_of_agrees h.key nofun
  matchValue hab := by
    rw [hab]
    exact test_of_agrees h.value (ofNode_ne_pattern _)

end Matcher

namespace Query

/-! ## Sources -/

/-- A query whose expressions are all what their sources are read as under the flags they have. -/
def FromSource (query : Query) : Prop :=
  ∀ m ∈ query.matchers, (∀ p ∈ m.key, p.FromSource) ∧ ∀ p ∈ m.value, p.FromSource

theorem compile_fromSource [Regex.Engine] {path : String} {flags : Option Flags} {query : Query}
    (h : compile path flags = .ok query) : query.FromSource := by
  have hrelated := (sameOutcome_compile path (Matcher.tokensAgree_fromSource _)).of_ok h h
  rw [List.forall₂_same] at hrelated
  intro m hm
  obtain ⟨hkey, hvalue, -⟩ := hrelated m hm
  constructor
  · intro p hp
    rw [Option.mem_def.1 hp] at hkey
    cases hkey with
    | some hsource => exact hsource
  · intro p hp
    rw [Option.mem_def.1 hp] at hvalue
    cases hvalue with
    | some hsource => exact hsource

/-! ## Flags for layout -/

/-- **Layout flags change nothing.** Two sets of base flags that differ at most in that one has
flags for layout, or is unset where the other is empty, give one error for a path, or two queries
with the same answers in every document, if the engine has room for the expressions of both. These
are what their sources are read as under their flags, blanks and `#` included. -/
theorem find_of_extended [Regex.Engine] (path : String) (flags flags' : Option Flags)
    (hcase : (flags.getD .empty).ignoreCase = (flags'.getD .empty).ignoreCase)
    (hlines : (flags.getD .empty).multiline = (flags'.getD .empty).multiline)
    (hsize : WithinSize (compile path flags)) (hsize' : WithinSize (compile path flags')) :
    (∃ error, compile path flags = .error error ∧ compile path flags' = .error error) ∨
      ∃ query query', compile path flags = .ok query ∧ compile path flags' = .ok query' ∧
        query.FromSource ∧ query'.FromSource ∧
          ∀ {α : Type} [Tree α] (root : α), find query root = find query' root := by
  have hmode : (flags.getD .empty).mode = (flags'.getD .empty).mode := by
    rw [Flags.mode, Flags.mode, hcase, hlines]
  have hadded := Path.mode_addFlags (Path.written path.toList) hmode
  rw [← Path.getD_flagsOf, ← Path.getD_flagsOf] at hadded
  have houtcome := sameOutcome_compile path (Matcher.tokensAgree_agrees hadded)
  refine (houtcome.error_or_ok hsize hsize').imp_right ?_
  rintro ⟨query, query', hquery, hquery', hrelated⟩
  refine ⟨query, query', hquery, hquery', compile_fromSource hquery, compile_fromSource hquery',
    fun root => ?_⟩
  exact find_eq_of_twins (hrelated.imp fun _ _ hm => hm.twins) root

/-- Blanks, `#` and a dot, as a text without flags and in an expression with layout. -/
theorem find_of_extended_blanks :
    ((none : Option Flags).getD .empty).ignoreCase =
        ((some { extended := true }).getD Flags.empty).ignoreCase ∧
      ((none : Option Flags).getD .empty).multiline =
        ((some { extended := true }).getD Flags.empty).multiline ∧
      WithinSize (compile "**/a b#.=1 # 2" none) ∧
      WithinSize (compile "**/a b#.=1 # 2" (some { extended := true })) ∧
      ∃ query query', compile "**/a b#.=1 # 2" none = .ok query ∧
        compile "**/a b#.=1 # 2" (some { extended := true }) = .ok query' ∧
        query.FromSource ∧ query'.FromSource ∧
        (find query (Json.array [.object [("ab", .string "1"), ("a b#.", .string "1 # 2")]])).map
          Answer.location = [⟨[.index 0, .name "a b#."], [], [⟨0, [.index 0]⟩]⟩] ∧
        find query (Json.array [.object [("ab", .string "1"), ("a b#.", .string "1 # 2")]]) =
          find query' (Json.array [.object [("ab", .string "1"), ("a b#.", .string "1 # 2")]]) := by
  have hcompile : compile "**/a b#.=1 # 2" none =
      .ok ⟨[⟨some (.literal "a b#."), some (.literal "1 # 2"), true⟩]⟩ := by
    rfl
  have hsize : WithinSize (compile "**/a b#.=1 # 2" none) :=
    withinSize_of_isOk (by decide +kernel)
  have hsize' : WithinSize (compile "**/a b#.=1 # 2" (some { extended := true })) :=
    withinSize_of_isOk (by decide +kernel)
  obtain ⟨error, herror, -⟩ | ⟨query, query', hquery, hquery', hsource, hsource', hfind⟩ :=
    find_of_extended "**/a b#.=1 # 2" none (some { extended := true }) rfl rfl hsize hsize'
  · rw [hcompile] at herror
    cases herror
  · refine ⟨rfl, rfl, hsize, hsize', query, query', hquery, hquery', hsource, hsource', ?_, hfind _⟩
    rw [hcompile] at hquery
    rw [← Except.ok.inj hquery]
    decide +kernel

end Query

end PathQuery
