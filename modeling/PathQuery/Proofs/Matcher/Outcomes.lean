import Mathlib.Data.List.Forall2
import PathQuery.Proofs.Path.WellFormed
import PathQuery.Proofs.Pattern.Compile
import PathQuery.Query

/-!
# Compiling one path twice

A path compiles token by token, so two sets of flags give the same outcome for a path, one error
or two chains that are related pattern by pattern, as soon as they do for each token that can be
written in a path (`Query.sameOutcome_compile`). Where there is no room for an expression, the two
outcomes can be anything.
-/

namespace PathQuery

/-! ## Outcomes -/

/-- Two computations end in the same error, or in values that are related, unless there is no room
for an expression in one of them. -/
inductive SameOutcome {β γ : Type} (R : β → γ → Prop) :
    Except CompileError β → Except CompileError γ → Prop
  | error (error : CompileError) : SameOutcome R (.error error) (.error error)
  | ok {x : β} {y : γ} : R x y → SameOutcome R (.ok x) (.ok y)
  | left {error : CompileError} (y : Except CompileError γ) : error.refusal.isTooLarge = true →
      SameOutcome R (.error error) y
  | right {error : CompileError} (x : Except CompileError β) : error.refusal.isTooLarge = true →
      SameOutcome R x (.error error)

namespace SameOutcome

variable {β γ β' γ' : Type} {R : β → γ → Prop} {S : β' → γ' → Prop} {x : Except CompileError β}
  {y : Except CompileError γ}

theorem bind (h : SameOutcome R x y) {f : β → Except CompileError β'}
    {g : γ → Except CompileError γ'} (hfg : ∀ a b, R a b → SameOutcome S (f a) (g b)) :
    SameOutcome S (x >>= f) (y >>= g) := by
  cases h with
  | error error => exact .error error
  | ok hxy => exact hfg _ _ hxy
  | left y herror => exact .left _ herror
  | right x herror => exact .right _ herror

theorem map (h : SameOutcome R x y) {f : β → β'} {g : γ → γ'}
    (hfg : ∀ a b, R a b → S (f a) (g b)) : SameOutcome S (x.map f) (y.map g) := by
  cases h with
  | error error => exact .error error
  | ok hxy => exact .ok (hfg _ _ hxy)
  | left y herror => exact .left _ herror
  | right x herror => exact .right _ herror

theorem error_or_ok (h : SameOutcome R x y) (hx : WithinSize x) (hy : WithinSize y) :
    (∃ error, x = .error error ∧ y = .error error) ∨ ∃ a b, x = .ok a ∧ y = .ok b ∧ R a b := by
  cases h with
  | error error => exact .inl ⟨error, rfl, rfl⟩
  | ok hxy => exact .inr ⟨_, _, rfl, rfl, hxy⟩
  | left y herror => cases herror.symm.trans (hx _ rfl)
  | right x herror => cases herror.symm.trans (hy _ rfl)

theorem of_ok (h : SameOutcome R x y) {a : β} {b : γ} (hx : x = .ok a) (hy : y = .ok b) :
    R a b := by
  cases h with
  | error => cases hx
  | ok hxy =>
    cases hx
    cases hy
    exact hxy
  | left => cases hx
  | right => cases hy

end SameOutcome

/-! ## Tokens in paths -/

/-- The tokens that a path can hold: text, the step to the parent, and the pattern that a `**` at
the end stands for. -/
inductive Token.Written : Token → Prop
  | text (s : String) : Written (.text s)
  | any : Written (.pattern .any)
  | parent : Written .parent

/-- A segment whose tokens can be written in a path. -/
structure Segment.Written (segment : Segment) : Prop where
  key : ∀ token ∈ segment.key, token.Written
  value : ∀ token ∈ segment.value, token.Written

namespace Segment

theorem WellFormed.written {final : Bool} {segment : Segment} (h : segment.WellFormed final) :
    segment.Written where
  key token htoken := by
    cases token with
    | text s => exact .text s
    | atom key => exact absurd htoken (h.atom key)
    | pattern p =>
      obtain ⟨rfl, -⟩ := h.pattern p htoken
      exact .any
    | parent => exact .parent
  value token htoken := by
    obtain ⟨text, rfl, -⟩ := h.value token htoken
    exact .text text

theorem written_of_mem_ofTexts (pending : Bool) (texts : List (List Char)) :
    ∀ segment ∈ ofTexts pending texts, segment.Written := by
  intro segment hmem
  rcases wellFormed_of_mem_ofTexts hmem with hwell | rfl
  · exact hwell.written
  · exact ⟨wellFormed_everything.written.key, wellFormed_everything.written.value⟩

theorem written_of_mem_ofPath (path : List Char) : ∀ segment ∈ ofPath path, segment.Written := by
  intro segment hmem
  obtain ⟨i, hi⟩ := List.mem_iff_getElem?.1 hmem
  exact (wellFormed_of_getElem?_ofPath hi).written

end Segment

/-! ## Chains -/

/-- Two matchers with related patterns, both recursive or neither. -/
structure Matcher.Related (R : Pattern → Pattern → Prop) (m n : Matcher) : Prop where
  key : Option.Rel R m.key n.key
  value : Option.Rel R m.value n.value
  recursive : m.recursive = n.recursive

namespace Matcher

namespace Related

variable {R : Pattern → Pattern → Prop} {m n : Matcher}

theorem isNone_eq (h : Related R m n) : m.key.isNone = n.key.isNone := by
  match m.key, n.key, h.key with
  | _, _, .none => rfl
  | _, _, .some _ => rfl

theorem isParent_eq (hR : ∀ {p q}, R p q → p.isParent = q.isParent) (h : Related R m n) :
    m.isParent = n.isParent := by
  unfold isParent
  match m.key, n.key, h.key with
  | _, _, .none => rfl
  | _, _, .some hpattern => exact hR hpattern

end Related

/-- Each token that can be written in a path has the same outcome under two sets of flags. -/
def TokensAgree [Regex.Engine] (R : Pattern → Pattern → Prop) (flags flags' : Option Flags) :
    Prop :=
  ∀ token : Token, token.Written →
    SameOutcome R (Pattern.ofToken (some token) flags) (Pattern.ofToken (some token) flags')

variable {R : Pattern → Pattern → Prop} {flags flags' : Option Flags}

theorem sameOutcome_compileToken [Regex.Engine] (h : TokensAgree R flags flags')
    {token : Option Token} (hwritten : ∀ t ∈ token, t.Written) :
    SameOutcome (Option.Rel R) (compileToken token flags) (compileToken token flags') := by
  cases token with
  | none => exact .ok .none
  | some token =>
    have htoken := h token (hwritten token rfl)
    cases token with
    | text s =>
      unfold compileToken
      dsimp only
      split
      · exact .ok .none
      · exact htoken.map fun _ _ => .some
    | atom key => exact htoken.map fun _ _ => .some
    | pattern p => exact htoken.map fun _ _ => .some
    | parent => exact htoken.map fun _ _ => .some

theorem sameOutcome_ofSegment [Regex.Engine] (h : TokensAgree R flags flags') {segment : Segment}
    (hwritten : segment.Written) :
    SameOutcome (Related R) (ofSegment segment flags) (ofSegment segment flags') :=
  (sameOutcome_compileToken h hwritten.key).bind fun _ _ hkey =>
    (sameOutcome_compileToken h hwritten.value).bind fun _ _ hvalue => .ok ⟨hkey, hvalue, rfl⟩

theorem sameOutcome_ofSegments [Regex.Engine] (h : TokensAgree R flags flags')
    {segments : List Segment} (hwritten : ∀ segment ∈ segments, segment.Written) :
    SameOutcome (List.Forall₂ fun m n => Related R m.1 n.1) (ofSegments flags segments)
      (ofSegments flags' segments) := by
  induction segments with
  | nil => exact .ok .nil
  | cons segment rest ih =>
    obtain ⟨hfirst, hrest⟩ := List.forall_mem_cons.1 hwritten
    exact (sameOutcome_ofSegment h hfirst).bind fun _ _ hm =>
      (ih hrest).bind fun _ _ hms => .ok (.cons hm hms)

theorem sameOutcome_ofPath [Regex.Engine] (h : TokensAgree R flags flags') (path : List Char) :
    SameOutcome (List.Forall₂ (Related R)) (ofPath path flags) (ofPath path flags') :=
  (sameOutcome_ofSegments h (Segment.written_of_mem_ofPath path)).map fun _ _ hms => by
    rw [List.forall₂_map_left_iff, List.forall₂_map_right_iff]
    exact hms

end Matcher

/-! ## Queries -/

namespace Path

/-- The flags that are written at the end of a path. -/
def written (path : List Char) : List Char := (splitFlags path).2.getD []

theorem flagsOf_snd (path : List Char) (base : Option Flags) :
    (flagsOf path base).2 = (splitFlags path).1 := by
  unfold flagsOf
  split <;> rename_i h <;> rw [h]

/-- The flags of a path are the base flags and those written at its end. -/
theorem getD_flagsOf (path : List Char) (base : Option Flags) :
    (flagsOf path base).1.getD .empty = addFlags (base.getD .empty) (written path) := by
  unfold flagsOf written
  split
  · rename_i text letters h
    rw [h]
    dsimp only [Option.getD_some]
    split
    · rename_i hempty
      have hflags := of_decide_eq_true (Bool.and_eq_true_iff.1 hempty).1
      exact hflags.symm
    · rfl
  · rename_i text h
    rw [h]
    rfl

end Path

namespace Query

variable {R : Pattern → Pattern → Prop} {flags flags' : Option Flags}

/-- A path has the same outcome under two sets of flags if every token has, under these flags and
those written in the path. -/
theorem sameOutcome_compile [Regex.Engine] (path : String)
    (h : Matcher.TokensAgree R (Path.flagsOf path.toList flags).1
      (Path.flagsOf path.toList flags').1) :
    SameOutcome
      (fun query query' => List.Forall₂ (Matcher.Related R) query.matchers query'.matchers)
      (compile path flags) (compile path flags') := by
  unfold compile
  dsimp only
  rw [Path.flagsOf_snd, Path.flagsOf_snd]
  exact (Matcher.sameOutcome_ofPath h _).map fun _ _ hms => hms

end Query

end PathQuery
