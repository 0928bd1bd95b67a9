import Mathlib.Data.List.Forall2
import PathQuery.Matcher
import PathQuery.Proofs.Pattern.Quoted

/-!
# Compiling segments

Segments compile one for one (`ofPath_eq_ok_iff`). A segment with a quoted key, and perhaps
a quoted value, compiles to a matcher that accepts the entries whose key, and value,
have the plain text (`matchEntry_of_spells`).
-/

namespace PathQuery

/-! ## Texts -/

namespace Pattern

variable {token : String} {flags : Option Flags}

/-- Text compiles to no step to the parent, or fails with an error that carries it. -/
theorem ofText_ok_or_error [Regex.Engine] (token : String) (flags : Option Flags) :
    (∃ p, ofText token flags = .ok p ∧ p.isParent = false) ∨
      ∃ error, ofText token flags = .error error ∧ error.token = token := by
  have hcompiles := compilesAs_ofText token flags
  generalize ofText token flags = result at hcompiles ⊢
  cases hcompiles with
  | tooLarge => exact .inr ⟨_, rfl, rfl⟩
  | malformed => exact .inr ⟨_, rfl, rfl⟩
  | _ => exact .inl ⟨_, rfl, rfl⟩

theorem isParent_of_ofText [Regex.Engine] {p : Pattern} (h : ofText token flags = .ok p) :
    p.isParent = false := by
  rcases ofText_ok_or_error token flags with ⟨q, hq, hparent⟩ | ⟨error, herror, -⟩
  · cases hq.symm.trans h
    exact hparent
  · cases herror.symm.trans h

theorem token_of_ofText [Regex.Engine] {error : CompileError}
    (h : ofText token flags = .error error) : error.token = token := by
  rcases ofText_ok_or_error token flags with ⟨q, hq, -⟩ | ⟨error', herror, htoken⟩
  · cases hq.symm.trans h
  · cases herror.symm.trans h
    exact htoken

end Pattern

namespace Matcher

open PathQuery.Path Segment

variable {flags : Option Flags}

/-! ## Paths -/

/-- Marking the last of some segments changes nothing about how they compile. -/
theorem ofSegments_markLast [Regex.Engine] {segments : List Segment} {ms : List Matcher}
    (h : List.Forall₂ (fun segment m => ofSegment segment flags = .ok m) segments ms) :
    ∃ marked, ofSegments flags (markLast segments) = .ok marked ∧ marked.map Prod.fst = ms := by
  induction h with
  | nil => exact ⟨[], rfl, rfl⟩
  | @cons segment m rest ms hfirst hrest ih =>
    cases hrest with
    | nil =>
      have hlast : ofSegment { segment with last := true } flags = .ok m := hfirst
      refine ⟨[(m, true)], ?_, rfl⟩
      rw [markLast, ofSegments, hlast]
      rfl
    | cons hsecond hrest =>
      obtain ⟨marked, hmarked, hms⟩ := ih
      refine ⟨(m, segment.last) :: marked, ?_, ?_⟩
      · rw [markLast, ofSegments, hfirst, hmarked]
        · rfl
        · intro heq
          cases heq
      · rw [List.map_cons, hms]

theorem ofPath_eq_ok [Regex.Engine] {path : List Char} {ms : List Matcher}
    (h : List.Forall₂ (fun segment m => ofSegment segment flags = .ok m)
      (ofTexts false (segmentTexts path)) ms) : ofPath path flags = .ok ms := by
  obtain ⟨marked, hmarked, rfl⟩ := ofSegments_markLast h
  rw [ofPath, Segment.ofPath, hmarked]
  rfl

/-- Segments compile one for one, and each matcher goes with the mark of its segment. -/
theorem forall₂_of_ofSegments [Regex.Engine] {segments : List Segment}
    {marked : List (Matcher × Bool)}
    (h : ofSegments flags segments = .ok marked) :
    List.Forall₂ (fun segment shown => ofSegment segment flags = .ok shown.1 ∧
      shown.2 = segment.last) segments marked := by
  induction segments generalizing marked with
  | nil =>
    cases h
    exact .nil
  | cons segment rest ih =>
    rw [ofSegments] at h
    obtain ⟨m, hfirst, h⟩ := exists_of_bind_eq_ok h
    obtain ⟨others, hrest, h⟩ := exists_of_bind_eq_ok h
    cases h
    exact .cons ⟨hfirst, rfl⟩ (ih hrest)

theorem forall₂_map_fst_of_ofSegments [Regex.Engine] {segments : List Segment}
    {marked : List (Matcher × Bool)} (h : ofSegments flags segments = .ok marked) :
    List.Forall₂ (fun segment m => ofSegment segment flags = .ok m) segments
      (marked.map Prod.fst) :=
  List.forall₂_map_right_iff.2 ((forall₂_of_ofSegments h).imp fun _ _ => And.left)

theorem forall₂_of_markLast [Regex.Engine] {segments : List Segment} {ms : List Matcher}
    (h : List.Forall₂ (fun segment m => ofSegment segment flags = .ok m) (markLast segments) ms) :
    List.Forall₂ (fun segment m => ofSegment segment flags = .ok m) segments ms := by
  induction segments generalizing ms with
  | nil => exact h
  | cons segment rest ih =>
    cases rest with
    | nil =>
      cases h with
      | cons hlast hnil => exact .cons hlast hnil
    | cons next rest =>
      cases h with
      | cons hfirst hrest => exact .cons hfirst (ih hrest)

/-- The matchers of a path are those of its segments. -/
theorem ofPath_eq_ok_iff [Regex.Engine] {path : List Char} {ms : List Matcher} :
    ofPath path flags = .ok ms ↔
      List.Forall₂ (fun segment m => ofSegment segment flags = .ok m)
        (ofTexts false (segmentTexts path)) ms := by
  refine ⟨fun h => ?_, ofPath_eq_ok⟩
  obtain ⟨marked, hmarked, rfl⟩ := exists_of_map_eq_ok h
  exact forall₂_of_markLast (forall₂_map_fst_of_ofSegments hmarked)

/-- Every matcher of a path is that of one of its segments. -/
theorem exists_segment_of_mem [Regex.Engine] {path : List Char} {ms : List Matcher}
    (h : ofPath path flags = .ok ms) {m : Matcher} (hm : m ∈ ms) :
    ∃ segment ∈ ofTexts false (segmentTexts path), ofSegment segment flags = .ok m := by
  have hms := ofPath_eq_ok_iff.1 h
  obtain ⟨i, hi, rfl⟩ := List.getElem_of_mem hm
  have hsegment := hms.length_eq ▸ hi
  exact ⟨_, List.getElem_mem hsegment, hms.get hsegment hi⟩

/-- Every segment of a path that compiles does. -/
theorem exists_of_mem_segments [Regex.Engine] {path : List Char} {ms : List Matcher}
    (h : ofPath path flags = .ok ms) {segment : Segment}
    (hsegment : segment ∈ ofTexts false (segmentTexts path)) :
    ∃ m, ofSegment segment flags = .ok m := by
  have hms := ofPath_eq_ok_iff.1 h
  obtain ⟨i, hi, rfl⟩ := List.getElem_of_mem hsegment
  have hm := hms.length_eq ▸ hi
  exact ⟨_, hms.get hi hm⟩

/-! ## Quoted tokens -/

theorem compileToken_quote_eq [Regex.Engine] {text : String} (h : text ≠ "")
    (flags : Option Flags) :
    compileToken (some (textToken (quote isMark text.toList))) flags =
      (Pattern.ofText (String.ofList (quote isMark text.toList)) flags).map some := by
  have hne : String.ofList (quote isMark text.toList) ≠ "" := by
    intro heq
    apply h
    rw [← String.toList_eq_nil_iff, ← quote_eq_nil_iff (p := isMark), ← String.toList_ofList
      (l := quote isMark text.toList), heq, String.toList_empty]
  rw [textToken, compileToken, if_neg hne]

/-- Without flags there is no expression to find room for. -/
theorem compileToken_quote_none [Regex.Engine] {text : String} (h : text ≠ "") :
    ∃ p, compileToken (some (textToken (quote isMark text.toList))) none = .ok (some p) ∧
      p.isParent = false ∧ p.Spells text := by
  rw [compileToken_quote_eq h]
  rcases Pattern.ofText_quote h none with ⟨p, hp, hparent, hspells⟩ | ⟨error, -, hroom⟩
  · rw [hp]
    exact ⟨p, rfl, hparent, hspells nofun⟩
  · exact absurd rfl hroom.flags_ne_none

/-- The matcher of a segment with a quoted key. -/
theorem exists_of_ofSegment_quote_key [Regex.Engine] {key : String} (h : key ≠ "")
    {flags : Option Flags} {recursive : Bool} {m : Matcher}
    (hm : ofSegment ⟨some (textToken (quote isMark key.toList)), none, recursive, false⟩ flags =
      .ok m) :
    ∃ p, Pattern.ofText (String.ofList (quote isMark key.toList)) flags = .ok p ∧
      m = ⟨some p, none, recursive⟩ := by
  rw [ofSegment, ofTokens, compileToken_quote_eq h] at hm
  obtain ⟨pattern, htoken, hm⟩ := exists_of_bind_eq_ok hm
  obtain ⟨p, hp, rfl⟩ := exists_of_map_eq_ok htoken
  exact ⟨p, hp, (Except.ok.inj hm).symm⟩

/-! ## What the matchers accept -/

variable {α : Type} [Tree α] {p q : Pattern} {text value : String}

theorem matchEntry_of_spells (hp : p.Spells text) (recursive : Bool) (key : Key) (node : α) :
    matchEntry ⟨some p, none, recursive⟩ key node = Pattern.accepted (key.text == text) := by
  have hkey : p.captures? (.key key) = Pattern.accepted (key.text == text) :=
    hp (.key key) fun _ heq => nomatch heq
  rw [matchEntry, test, hkey, Pattern.accepted]
  split <;> rfl

theorem matchEntry_of_spells_value (hp : p.Spells text) (hq : q.Spells value)
    (recursive : Bool) (key : Key) (node : α) :
    matchEntry ⟨some p, some q, recursive⟩ key node =
      Pattern.accepted
        (key.text == text && (Tree.scalar? node).map Scalar.text == some value) := by
  have hkey : p.captures? (.key key) = Pattern.accepted (key.text == text) :=
    hp (.key key) fun _ heq => nomatch heq
  have hvalue : q.captures? (Subject.ofNode node) =
      Pattern.accepted ((Tree.scalar? node).map Scalar.text == some value) := by
    unfold Subject.ofNode
    cases Tree.scalar? node with
    | none => exact hq .composite fun _ heq => nomatch heq
    | some scalar => exact hq (.leaf scalar) fun _ heq => nomatch heq
  rw [matchEntry, matchValue, test, test, hkey, hvalue]
  cases key.text == text <;> cases (Tree.scalar? node).map Scalar.text == some value <;> rfl

theorem filterMap_accepted {β γ : Type} (condition : β → Bool)
    (f : β → List String → γ) (xs : List β) :
    (xs.filterMap fun x => (Pattern.accepted (condition x)).map (f x)) =
      (xs.filter condition).map fun x => f x [] := by
  induction xs with
  | nil => rfl
  | cons x xs ih =>
    rw [List.filterMap_cons, ih, List.filter_cons]
    cases condition x <;> rfl

end Matcher

end PathQuery
