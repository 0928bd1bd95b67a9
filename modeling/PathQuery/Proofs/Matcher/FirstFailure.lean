import PathQuery.Proofs.Matcher.Compile
import PathQuery.Proofs.Path.WellFormed

/-!
# Paths compile as a whole or not at all

The tokens of a path compile from left to right, in a segment the key before the value, and the
first that fails ends it all with its error (`FirstFailure`). What compiles in parts does so as a
whole (`CompilesInOrder.bind`), from a single token up to the segments of a path. So a visitor sees
the matchers of all segments, in their order, the last of them marked, or none of them
(`ofPathEach_all_or_nothing`).
-/

namespace PathQuery

/-- The tokens of a segment, in the order in which they compile. -/
def Segment.tokens (segment : Segment) : List Token := segment.key.toList ++ segment.value.toList

theorem Segment.flatMap_tokens_markLast (segments : List Segment) :
    (markLast segments).flatMap tokens = segments.flatMap tokens := by
  induction segments with
  | nil => rfl
  | cons segment rest ih =>
    cases rest with
    | nil => rfl
    | cons next rest => exact congrArg (segment.tokens ++ ·) ih

/-- A token compiles to a pattern under some flags. -/
def Token.Compiles [Regex.Engine] (flags : Option Flags) (token : Token) : Prop :=
  ∃ p, Pattern.ofToken (some token) flags = .ok p

namespace Pattern

/-- Only text can fail to compile, and its error carries it. -/
theorem exists_text_of_ofToken [Regex.Engine] {token : Token} {flags : Option Flags}
    {error : CompileError} (h : ofToken (some token) flags = .error error) :
    ∃ text, token = .text text ∧ ofText text flags = .error error ∧ error.token = text := by
  cases token with
  | text text => exact ⟨text, rfl, h, token_of_ofText h⟩
  | atom key => cases h
  | pattern p => cases h
  | parent => cases h

end Pattern

namespace Matcher

variable {flags : Option Flags} {tokens more : List Token} {error : CompileError}

/-! ## Compiling in order -/

/-- The error is that of the first of some tokens that does not compile, and carries its text. -/
def FirstFailure [Regex.Engine] (flags : Option Flags) (tokens : List Token)
    (error : CompileError) : Prop :=
  ∃ before text after, tokens = before ++ .text text :: after ∧
    (∀ token ∈ before, token.Compiles flags) ∧
    Pattern.ofText text flags = .error error ∧ error.token = text

/-- What compiling some tokens in their order comes to: a value if all of them compile, and else
the error of the first that does not. -/
inductive CompilesInOrder [Regex.Engine] (flags : Option Flags) (tokens : List Token) {β : Type} :
    Except CompileError β → Prop
  | ok (x : β) : (∀ token ∈ tokens, token.Compiles flags) → CompilesInOrder flags tokens (.ok x)
  | error {error : CompileError} :
      FirstFailure flags tokens error → CompilesInOrder flags tokens (.error error)

/-- Tokens behind the first that does not compile make no difference. -/
theorem FirstFailure.append [Regex.Engine] (h : FirstFailure flags tokens error)
    (more : List Token) : FirstFailure flags (tokens ++ more) error := by
  obtain ⟨before, text, after, rfl, hbefore, hfails⟩ := h
  refine ⟨before, text, after ++ more, ?_, hbefore, hfails⟩
  rw [List.append_assoc, List.cons_append]

theorem FirstFailure.append_left [Regex.Engine] (h : FirstFailure flags more error)
    (htokens : ∀ token ∈ tokens, token.Compiles flags) :
    FirstFailure flags (tokens ++ more) error := by
  obtain ⟨before, text, after, rfl, hbefore, hfails⟩ := h
  refine ⟨tokens ++ before, text, after, ?_, ?_, hfails⟩
  · rw [List.append_assoc]
  · exact List.forall_mem_append.2 ⟨htokens, hbefore⟩

section Parts

variable {β γ : Type} {x : Except CompileError β}

/-- Tokens that compile in two parts compile in order. -/
theorem CompilesInOrder.bind [Regex.Engine] (h : CompilesInOrder flags tokens x)
    {f : β → Except CompileError γ} (hf : ∀ a, CompilesInOrder flags more (f a)) :
    CompilesInOrder flags (tokens ++ more) (x >>= f) := by
  cases h with
  | error hfails => exact .error (hfails.append more)
  | ok a htokens =>
    -- the second part decides, and its first failure stays the first behind tokens that compile
    have hrest := hf a
    generalize hresult : f a = result at hrest
    cases hrest with
    | error hfails =>
      have hbind : Except.ok a >>= f = .error _ := hresult
      rw [hbind]
      exact .error (hfails.append_left htokens)
    | ok b hmore =>
      have hbind : Except.ok a >>= f = .ok b := hresult
      rw [hbind]
      exact .ok b (List.forall_mem_append.2 ⟨htokens, hmore⟩)

theorem CompilesInOrder.map [Regex.Engine] (h : CompilesInOrder flags tokens x) (f : β → γ) :
    CompilesInOrder flags tokens (x.map f) := by
  cases h with
  | error hfails => exact .error hfails
  | ok a htokens => exact .ok (f a) htokens

end Parts

/-! ## Tokens, segments, paths -/

theorem compilesInOrder_ofToken [Regex.Engine] (token : Token) :
    CompilesInOrder flags [token] (Pattern.ofToken (some token) flags) := by
  cases h : Pattern.ofToken (some token) flags with
  | ok p => exact .ok p (List.forall_mem_singleton.2 ⟨p, h⟩)
  | error error =>
    obtain ⟨text, rfl, hfails⟩ := Pattern.exists_text_of_ofToken h
    exact .error ⟨[], text, [], rfl, List.forall_mem_nil _, hfails⟩

theorem compilesInOrder_compileToken [Regex.Engine] (token : Option Token) :
    CompilesInOrder flags token.toList (compileToken token flags) := by
  cases token with
  | none => exact .ok none (List.forall_mem_nil _)
  | some token =>
    have hmap := (@compilesInOrder_ofToken flags _ token).map some
    cases token with
    | text text =>
      rw [compileToken]
      split
      · next hempty =>
        -- empty text counts as absent, and would compile as well
        subst hempty
        exact .ok none (List.forall_mem_singleton.2 ⟨.any, rfl⟩)
      · exact hmap
    | atom key => exact hmap
    | pattern p => exact hmap
    | parent => exact hmap

theorem compilesInOrder_ofSegment [Regex.Engine] (segment : Segment) :
    CompilesInOrder flags segment.tokens (ofSegment segment flags) := by
  refine (compilesInOrder_compileToken segment.key).bind fun key => ?_
  rw [← List.append_nil segment.value.toList]
  exact (compilesInOrder_compileToken segment.value).bind fun value =>
    .ok _ (List.forall_mem_nil _)

theorem compilesInOrder_ofSegments [Regex.Engine] (segments : List Segment) :
    CompilesInOrder flags (segments.flatMap Segment.tokens) (ofSegments flags segments) := by
  induction segments with
  | nil => exact .ok [] (List.forall_mem_nil _)
  | cons segment rest ih =>
    rw [List.flatMap_cons, ofSegments]
    refine (compilesInOrder_ofSegment segment).bind fun m => ?_
    rw [← List.append_nil (rest.flatMap Segment.tokens)]
    exact ih.bind fun ms => .ok _ (List.forall_mem_nil _)

/-! ## The visitor -/

/-- Of the matchers that a visitor sees only the last one is marked. -/
theorem marked_eq_mapIdx [Regex.Engine] {path : List Char} {marked : List (Matcher × Bool)}
    (h : ofSegments flags (Segment.ofPath path) = .ok marked) :
    marked = (marked.map Prod.fst).mapIdx fun i m =>
      (m, i + 1 == (marked.map Prod.fst).length) := by
  have hsegments := forall₂_of_ofSegments h
  refine List.ext_getElem (by simp) fun i hi _ => ?_
  have hi' : i < (Segment.ofPath path).length := hsegments.length_eq ▸ hi
  have hmark := (hsegments.get hi' hi).2
  have hlast : (Segment.ofPath path)[i].last = (i + 1 == (marked.map Prod.fst).length) := by
    rw [List.length_map, ← hsegments.length_eq]
    exact (Segment.wellFormed_of_getElem?_ofPath (List.getElem?_eq_getElem hi')).last
  rw [List.getElem_mapIdx, List.getElem_map]
  exact Prod.ext rfl (hmark.trans hlast)

/-- **A path compiles as a whole or not at all.** Either all its tokens compile: then a visitor is
called once for each segment, in their order, with the matcher that the segment compiles to, the
last of them marked as such, and these are the matchers of the path. Or the path fails with the
error of the first token that does not compile, and the visitor is not called. -/
theorem ofPathEach_all_or_nothing [Regex.Engine] (path : List Char) (flags : Option Flags) :
    (∃ ms, (∀ token ∈ (Segment.ofPath path).flatMap Segment.tokens, token.Compiles flags) ∧
        List.Forall₂ (fun segment m => ofSegment segment flags = .ok m)
          (Segment.ofPath path) ms ∧
        ofPath path flags = .ok ms ∧
        ∀ {σ : Type} (visit : σ → Matcher → Bool → σ) (state : σ),
          ofPathEach path flags visit state =
            ((ms.mapIdx fun i m => (m, i + 1 == ms.length)).foldl
              (fun state shown => visit state shown.1 shown.2) state, .ok ())) ∨
      ∃ error, FirstFailure flags ((Segment.ofPath path).flatMap Segment.tokens) error ∧
        ofPath path flags = .error error ∧
        ∀ {σ : Type} (visit : σ → Matcher → Bool → σ) (state : σ),
          ofPathEach path flags visit state = (state, .error error) := by
  have horder := @compilesInOrder_ofSegments flags _ (Segment.ofPath path)
  unfold ofPathEach ofPath
  cases h : ofSegments flags (Segment.ofPath path) with
  | ok marked =>
    rw [h] at horder
    cases horder with
    | ok _ htokens =>
      refine .inl ⟨marked.map Prod.fst, htokens, forall₂_map_fst_of_ofSegments h, rfl, ?_⟩
      intro σ visit state
      rw [← marked_eq_mapIdx h]
  | error error =>
    rw [h] at horder
    cases horder with
    | error hfails => exact .inr ⟨error, hfails, rfl, fun _ _ => rfl⟩

/-- A value that fails behind tokens that compile and before one that does not, and a path that
compiles. -/
theorem ofPathEach_all_or_nothing_value :
    (∃ error, FirstFailure none [.text "a", .text "b", .text "(c", .text "d)"] error ∧
        error.token = "(c" ∧
        ofPathEach "a/b=(c/d)".toList none (fun seen _ _ => seen + 1) 0 = (0, .error error)) ∧
      ofPathEach "a/..=b".toList none (fun seen _ last => seen ++ [last]) [] =
        ([false, true], .ok ()) := by
  constructor
  · have hpath : ofPath "a/b=(c/d)".toList none =
        .error ⟨"(c", "\\A(?:(c)\\z", .malformed ⟨.unclosed, 2, 3⟩⟩ := rfl
    rcases ofPathEach_all_or_nothing "a/b=(c/d)".toList none with
      ⟨ms, -, -, hms, -⟩ | ⟨error, hfails, herror, heach⟩
    · cases hpath.symm.trans hms
    · obtain rfl := Except.error.inj (hpath.symm.trans herror)
      exact ⟨_, hfails, rfl, heach _ _⟩
  · have hpath : ofPath "a/..=b".toList none =
        .ok [⟨some (.literal "a"), none, false⟩, ⟨some .parent, some (.literal "b"), false⟩] := rfl
    rcases ofPathEach_all_or_nothing "a/..=b".toList none with
      ⟨ms, -, -, hms, heach⟩ | ⟨error, -, herror, -⟩
    · obtain rfl := Except.ok.inj (hpath.symm.trans hms)
      exact heach _ _
    · cases hpath.symm.trans herror

end Matcher

end PathQuery
