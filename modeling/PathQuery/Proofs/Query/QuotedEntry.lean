import PathQuery.Path.Escape
import PathQuery.Proofs.Matcher.Compile
import PathQuery.Proofs.Query.Chain
import PathQuery.Proofs.Tree.Documents

/-!
# Entries under escaped names

A query of one recursive segment gives the hits of its matcher in the order of the
search (`find_singleton`). Where the key and the value of the segment are escaped, these
are the entries with that key and that value, whatever the two texts spell
(`find_escaped_entry`).
-/

namespace PathQuery

open PathQuery.Path PathQuery.Tree

/-! ## Compiling -/

namespace Path

/-- The path of a recursive segment with an escaped key and an escaped value. -/
def entryText (key value : List Char) : List Char :=
  '*' :: '*' :: '/' :: (escape key ++ '=' :: escape value)

theorem segmentTexts_entryText (key value : List Char) :
    segmentTexts (entryText key value) =
      [['*', '*'], quote isMark key ++ '=' :: quote isMark value] := by
  have hvalue : segmentTexts ('=' :: escape value) = ['=' :: quote isMark value] := by
    have hlast := segmentTexts_escape_append value []
    rw [List.append_nil, segmentTexts] at hlast
    rw [segmentTexts_cons_of_ne (by decide) (by decide), hlast]
    exact foldr_consHead_nil (List.cons_ne_nil '=' _)
  rw [entryText, segmentTexts_cons_of_ne (by decide) (by decide),
    segmentTexts_cons_of_ne (by decide) (by decide), segmentTexts, segmentTexts_escape_append,
    hvalue, foldr_consHead_cons]
  rfl

theorem splitFlags_entryText {key : List Char} (h : key ≠ []) (value : List Char) :
    splitFlags (entryText key value) = (entryText key value, none) := by
  rw [entryText, splitFlags_cons_of_ne (by decide) (by decide),
    splitFlags_cons_of_ne (by decide) (by decide),
    splitFlags_slash_cons (escape_append_ne_slash_cons h _), splitFlags_escape_append,
    splitFlags_cons_of_ne (by decide) (by decide), splitFlags_escape]

end Path

/-- The one segment of that path. -/
theorem Segment.ofTexts_entryText {key value : List Char} (hkey : key ≠ []) (hvalue : value ≠ []) :
    ofTexts false (segmentTexts (entryText key value)) =
      [{ key := some (textToken (quote isMark key))
         value := some (textToken (quote isMark value))
         recursive := true }] := by
  have hsplit : splitValue (quote isMark key ++ '=' :: quote isMark value) =
      (quote isMark key, some (quote isMark value)) := by
    rw [splitValue_quote_append (by decide) (by decide), splitValue, List.append_nil]
  have hne : quote isMark value ≠ [] := fun h => hvalue (quote_eq_nil_iff.1 h)
  have hfilter : (some (quote isMark value)).filter (· ≠ []) = some (quote isMark value) :=
    if_pos (decide_eq_true hne)
  rw [segmentTexts_entryText, ofTexts, ofTexts_quote_cons hkey hsplit, ofTexts, hfilter]
  rfl

namespace Query

/-- The query for escaped texts compiles to one recursive matcher, which spells them. -/
theorem compile_escaped_entry [Regex.Engine] {key value : String} (hkey : key ≠ "")
    (hvalue : value ≠ "") :
    ∃ p q : Pattern,
      compile ("**/" ++ escapeName key ++ "=" ++ escapeName value) none =
        .ok ⟨[⟨some p, some q, true⟩]⟩ ∧
      p.isParent = false ∧ p.Spells key ∧ q.Spells value := by
  have htext : ("**/" ++ escapeName key ++ "=" ++ escapeName value).toList =
      entryText key.toList value.toList := by
    simp [escapeName, entryText]
  obtain ⟨p, hp, hparent, hpSpells⟩ := Matcher.compileToken_quote_none hkey
  obtain ⟨q, hq, -, hqSpells⟩ := Matcher.compileToken_quote_none hvalue
  refine ⟨p, q, ?_, hparent, hpSpells, hqSpells⟩
  have hpath : Matcher.ofPath (entryText key.toList value.toList) none =
      .ok [⟨some p, some q, true⟩] := by
    apply Matcher.ofPath_eq_ok
    rw [Segment.ofTexts_entryText (toList_ne_nil hkey) (toList_ne_nil hvalue)]
    refine .cons ?_ .nil
    rw [Matcher.ofSegment, Matcher.ofTokens, hp, hq]
    rfl
  rw [compile, htext, flagsOf, splitFlags_entryText (toList_ne_nil hkey)]
  dsimp only
  rw [hpath]
  rfl

/-! ## Searching -/

variable {α : Type} [Tree α]

/-- A query of one segment gives the hits of its matcher. -/
theorem find_singleton {m : Matcher} (h : m.isParent = false) (root : α) :
    find ⟨[m]⟩ root = m.find root := by
  have hanswer : ∀ hit ∈ m.hits root, (answer? ∘ extend 0 (start root).location) hit =
      some ⟨hit.holder, hit.key, ⟨hit.path, hit.captures, (hit.splat.map (Splat.mk 0)).toList⟩⟩ := by
    intro hit hmem
    obtain ⟨visit, -, hhit⟩ := Matcher.mem_hits_iff.1 hmem
    obtain ⟨captures, -, rfl⟩ := Matcher.hit?_eq_some_iff.1 hhit
    refine answer?_eq_some_iff.2 ⟨?_, rfl, rfl⟩
    exact List.getLast?_concat
  rw [find, run_cons, run_nil, step_of_not_isParent h, stepInto_singleton, List.filterMap_map]
  refine (List.filterMap_congr hanswer).trans ?_
  exact congrFun List.filterMap_eq_map _

/-- **Escaped text has no meaning in a query.** The query for an escaped key and an escaped value
compiles. Its answers are the entries below the root with that key and a leaf with that text, in
pre-order and without captures; in a coherent document no two of them have one path. -/
theorem find_escaped_entry [Regex.Engine] {key value : String} (hkey : key ≠ "")
    (hvalue : value ≠ "") :
    ∃ query, compile ("**/" ++ escapeName key ++ "=" ++ escapeName value) none = .ok query ∧
      ∀ root : α,
        find query root =
            ((preorder root []).filter fun visit =>
              visit.key.text = key ∧ (scalar? visit.node).map Scalar.text = some value).map
                (fun visit => ⟨visit.holder, visit.key, ⟨visit.path, [], [⟨0, visit.descent⟩]⟩⟩) ∧
          (Coherent root → ((find query root).map fun answer => answer.location.path).Nodup) := by
  obtain ⟨p, q, hcompile, hparent, hp, hq⟩ := compile_escaped_entry hkey hvalue
  have hm : (⟨some p, some q, true⟩ : Matcher).isParent = false := hparent
  have hhit : Matcher.hit? (α := α) ⟨some p, some q, true⟩ = fun visit =>
      (Pattern.accepted (visit.key.text == key &&
        (scalar? visit.node).map Scalar.text == some value)).map fun captures =>
          ⟨visit.holder, visit.key, visit.node, visit.path, captures, some visit.descent⟩ := by
    funext visit
    rw [Matcher.hit?, Matcher.matchEntry_of_spells_value hp hq]
    rfl
  refine ⟨_, hcompile, fun root => ?_⟩
  have hreach : Matcher.reach ⟨some p, some q, true⟩ root = preorder root [] := if_pos rfl
  have hfind : find ⟨[⟨some p, some q, true⟩]⟩ root =
      ((preorder root []).filter fun visit =>
        visit.key.text = key ∧ (scalar? visit.node).map Scalar.text = some value).map
          fun visit => ⟨visit.holder, visit.key, ⟨visit.path, [], [⟨0, visit.descent⟩]⟩⟩ := by
    rw [find_singleton hm, Matcher.find, Matcher.hits_eq, hreach, hhit,
      Matcher.filterMap_accepted, List.map_map]
    simp only [Bool.decide_and, beq_eq_decide]
    rfl
  refine ⟨hfind, fun hc => ?_⟩
  rw [hfind, List.map_map]
  exact (List.filter_sublist.map Visit.path).nodup (nodup_preorder hc [])

/-- Text that spells marks and a range is found as it stands. -/
theorem find_escaped_entry_marks :
    "**" ≠ "" ∧ "1..2" ≠ "" ∧
      ∃ query, compile "**/\\*\\*=1\\.\\.2" none = .ok query ∧
        (find query (Json.array [.object [("**", .string "1..2"), ("*", .string "1")]])).map
          Answer.location = [⟨[.index 0, .name "**"], [], [⟨0, [.index 0]⟩]⟩] := by
  obtain ⟨query, hquery, hfind⟩ :=
    @find_escaped_entry Json _ _ "**" "1..2" (by decide) (by decide)
  refine ⟨by decide, by decide, query, hquery, ?_⟩
  rw [(hfind _).1, List.map_map]
  decide +kernel

end Query

end PathQuery
