import PathQuery.Proofs.Flatten.Names
import PathQuery.Proofs.Matcher.FirstFailure
import PathQuery.Proofs.Query.Chain

/-!
# Flattened paths as queries

The text of a flattened path, with its escapes, is read as one segment for each key that
is not empty (`ofTexts_pathChars`); a pair of slashes around an empty key can also begin
the flags (`splitFlags_pathChars`). So the text selects exactly the leaf that it was
written for if no key on the way is empty, and never that leaf if one is
(`find_flatten`). Flags make keys expressions, which the engine may have no room for
(`find_flatten_oversized`).
-/

namespace PathQuery

open PathQuery.Path PathQuery.Tree

/-! ## Reading the text of a path -/

namespace Path

/-- The characters of the text of a path with its escapes. -/
def pathChars (path : List Key) : List Char :=
  path.flatMap fun key => '/' :: escape key.text.toList

theorem pathChars_cons (key : Key) (path : List Key) :
    pathChars (key :: path) = '/' :: (escape key.text.toList ++ pathChars path) := rfl

theorem toList_pathText (path : List Key) : (pathText true path).toList = pathChars path := by
  rw [toList_pathText_eq_names, names, pathChars]
  simp only [escape_eq_quote, Bool.true_and]

/-- What is read of the text of a path before its flags is the text of the path up to some key,
and the text of the whole path if no key is empty. -/
theorem splitFlags_pathChars (path : List Key) :
    ∃ kept letters, splitFlags (pathChars path) = (pathChars kept, letters) ∧ kept <+: path ∧
      ((∀ key ∈ path, key.text ≠ "") → kept = path ∧ letters = none) := by
  induction path with
  | nil => exact ⟨[], none, rfl, List.prefix_rfl, fun _ => ⟨rfl, rfl⟩⟩
  | cons key path ih =>
    obtain ⟨kept, letters, hsplit, hpre, hall⟩ := ih
    rcases splitFlags_slash (escape key.text.toList ++ pathChars path) with h | ⟨flags, hrest, h⟩
    · refine ⟨key :: kept, letters, ?_, List.cons_prefix_cons.2 ⟨rfl, hpre⟩, fun hne => ?_⟩
      · rw [pathChars_cons, h, splitFlags_escape_append, hsplit, pathChars_cons]
      · obtain ⟨rfl, rfl⟩ := hall fun key' hkey' => hne key' (List.mem_cons_of_mem key hkey')
        exact ⟨rfl, rfl⟩
    · -- flags begin here, so the key is empty
      refine ⟨[], some flags, h, List.nil_prefix, fun hne => ?_⟩
      have hkey := toList_ne_nil (hne key List.mem_cons_self)
      exact absurd hrest (escape_append_ne_slash_cons hkey _ _)

end Path

/-- The segment of a key with its escapes. -/
def Segment.ofKey (key : Key) : Segment where
  key := some (textToken (quote isMark key.text.toList))
  value := none
  recursive := false

/-- The segments of the text of a path are the keys that are not empty. -/
theorem Segment.ofTexts_pathChars (path : List Key) :
    ofTexts false (segmentTexts (pathChars path)) =
      (path.filter (·.text ≠ "")).map ofKey := by
  induction path with
  | nil => rfl
  | cons key path ih =>
    rw [pathChars_cons, segmentTexts, segmentTexts_escape_append, ofTexts, List.filter_cons]
    by_cases hkey : key.text = ""
    · rw [hkey, if_neg (by simp), ← ih]
      rfl
    · have hlist := toList_ne_nil hkey
      have hquote : quote isMark key.text.toList ≠ [] := fun hnil => hlist (quote_eq_nil_iff.1 hnil)
      have hsplit : splitValue (quote isMark key.text.toList) =
          (quote isMark key.text.toList, none) := splitValue_quote (by decide) (by decide) _
      rw [if_pos (by simpa using hkey), List.map_cons, ← ih]
      cases path with
      | nil =>
        rw [pathChars, List.flatMap_nil, segmentTexts, foldr_consHead_nil hquote]
        exact ofTexts_quote_cons hlist hsplit false []
      | cons next path =>
        rw [pathChars_cons, segmentTexts, foldr_consHead_cons, List.append_nil, ofTexts]
        exact ofTexts_quote_cons hlist hsplit false _

/-! ## Compiling the text of a path -/

namespace Matcher

/-- The matcher of a segment with a key as it was escaped, compiled with flags. -/
def Names (flags : Option Flags) (key : Key) (m : Matcher) : Prop :=
  ∃ p : Pattern, m = ⟨some p, none, false⟩ ∧ p.isParent = false ∧
    ((∀ f ∈ flags, f.ignoreCase = false) → p.Spells key.text)

theorem Names.isParent {flags : Option Flags} {key : Key} {m : Matcher} (h : m.Names flags key) :
    m.isParent = false := by
  obtain ⟨p, rfl, hparent, -⟩ := h
  exact hparent

theorem Names.recursive {flags : Option Flags} {key : Key} {m : Matcher}
    (h : m.Names flags key) : m.recursive = false := by
  obtain ⟨p, rfl, -, -⟩ := h
  rfl

theorem plain_of_names {flags : Option Flags} {path : List Key} {ms : List Matcher}
    (h : List.Forall₂ (Names flags) path ms) :
    ∀ m ∈ ms, m.isParent = false ∧ m.recursive = false := by
  induction h with
  | nil => exact fun m hm => absurd hm List.not_mem_nil
  | cons hfirst _ ih => exact List.forall_mem_cons.2 ⟨⟨hfirst.isParent, hfirst.recursive⟩, ih⟩

theorem names_of_ofSegment [Regex.Engine] {flags : Option Flags} {key : Key} (h : key.text ≠ "")
    {m : Matcher} (hm : ofSegment (.ofKey key) flags = .ok m) : m.Names flags key := by
  obtain ⟨p, hp, rfl⟩ := exists_of_ofSegment_quote_key h hm
  rcases Pattern.ofText_quote h flags with ⟨q, hq, hspells⟩ | ⟨error, herror, -⟩
  · cases hq.symm.trans hp
    exact ⟨p, rfl, hspells⟩
  · cases herror.symm.trans hp

/-- Segments of keys that compile give a matcher for each key. -/
theorem forall₂_names [Regex.Engine] {flags : Option Flags} {path : List Key}
    (h : ∀ key ∈ path, key.text ≠ "") {ms : List Matcher}
    (hms : List.Forall₂ (fun segment m => ofSegment segment flags = .ok m)
      (path.map Segment.ofKey) ms) : List.Forall₂ (Names flags) path ms := by
  induction path generalizing ms with
  | nil =>
    cases hms
    exact .nil
  | cons key path ih =>
    cases hms with
    | cons hm hms =>
      obtain ⟨hkey, hpath⟩ := List.forall_mem_cons.1 h
      exact .cons (names_of_ofSegment hkey hm) (ih hpath hms)

/-- Segments of keys fail to compile only if there is no room for one of the keys. -/
theorem exists_oversized_of_firstFailure [Regex.Engine] {flags : Option Flags} {path : List Key}
    (h : ∀ key ∈ path, key.text ≠ "") {error : CompileError}
    (hfails : FirstFailure flags ((path.map Segment.ofKey).flatMap Segment.tokens) error) :
    ∃ key ∈ path, Pattern.Oversized key.text flags error := by
  obtain ⟨before, text, after, htokens, -, herror, -⟩ := hfails
  have hmem : Token.text text ∈ before ++ .text text :: after :=
    List.mem_append_right _ List.mem_cons_self
  rw [← htokens] at hmem
  obtain ⟨segment, hsegment, htoken⟩ := List.mem_flatMap.1 hmem
  obtain ⟨key, hkey, rfl⟩ := List.mem_map.1 hsegment
  cases List.mem_singleton.1 htoken
  rcases Pattern.ofText_quote (h key hkey) flags with ⟨p, hp, -⟩ | ⟨error', herror', hroom⟩
  · cases hp.symm.trans herror
  · cases herror'.symm.trans herror
    exact ⟨key, hkey, hroom⟩

/-- The text of a path compiles to one matcher for each key that is not empty, or there is no room
for one of the keys. -/
theorem ofPath_pathChars [Regex.Engine] (path : List Key) (flags : Option Flags) :
    (∃ ms, ofPath (pathChars path) flags = .ok ms ∧
        List.Forall₂ (Names flags) (path.filter (·.text ≠ "")) ms) ∨
      ∃ error, ofPath (pathChars path) flags = .error error ∧
        ∃ key ∈ path, Pattern.Oversized key.text flags error := by
  have hne : ∀ key ∈ path.filter (·.text ≠ ""), key.text ≠ "" := fun key hkey => by
    simpa using List.of_mem_filter hkey
  cases hcompile : ofPath (pathChars path) flags with
  | ok ms =>
    have hsegments := ofPath_eq_ok_iff.1 hcompile
    rw [Segment.ofTexts_pathChars] at hsegments
    exact .inl ⟨ms, rfl, forall₂_names hne hsegments⟩
  | error error =>
    have horder : CompilesInOrder flags ((Segment.ofPath (pathChars path)).flatMap Segment.tokens)
        (ofPath (pathChars path) flags) :=
      (compilesInOrder_ofSegments (Segment.ofPath (pathChars path))).map _
    rw [hcompile, Segment.ofPath, Segment.flatMap_tokens_markLast, Segment.ofTexts_pathChars]
      at horder
    cases horder with
    | error hfails =>
      obtain ⟨key, hkey, hroom⟩ := exists_oversized_of_firstFailure hne hfails
      exact .inr ⟨error, rfl, key, List.mem_of_mem_filter hkey, hroom⟩

end Matcher

namespace Query

/-- The text of a path compiles as the text up to some of its keys does, and with the given flags
as the whole text if no key is empty. -/
theorem compile_pathText [Regex.Engine] (path : List Key) (flags : Option Flags) :
    ∃ kept used, compile (pathText true path) flags =
        (Matcher.ofPath (pathChars kept) used).map Query.mk ∧
      kept <+: path ∧ ((∀ key ∈ path, key.text ≠ "") → kept = path ∧ used = flags) := by
  obtain ⟨kept, letters, hsplit, hpre, hall⟩ := splitFlags_pathChars path
  have hused : ∃ used, flagsOf (pathChars path) flags = (used, pathChars kept) ∧
      ((∀ key ∈ path, key.text ≠ "") → used = flags) := by
    cases letters with
    | none => exact ⟨flags, by rw [flagsOf, hsplit], fun _ => rfl⟩
    | some letters =>
      refine ⟨_, by rw [flagsOf, hsplit], fun hne => ?_⟩
      cases (hall hne).2
  obtain ⟨used, hflags, hsame⟩ := hused
  refine ⟨kept, used, ?_, hpre, fun hne => ⟨(hall hne).1, hsame hne⟩⟩
  rw [compile, toList_pathText, hflags]

/-- Under flags, the text of a path does not compile if one of its keys is no range of numbers and
its expression does not fit. -/
theorem exists_error_of_not_fits [Regex.Engine] {path : List Key}
    (hne : ∀ key ∈ path, key.text ≠ "") {key : Key} (hkey : key ∈ path)
    (hrange : Range.read? key.text.toList = none) {f : Flags}
    (hfits : ¬Regex.Engine.Fits
      (Pattern.sourceOf (String.ofList (quote isMark key.text.toList))) f) :
    ∃ error, compile (pathText true path) (some f) = .error error ∧
      error.refusal = .tooLarge Regex.Engine.sizeLimit := by
  obtain ⟨kept, used, hcompile, -, hall⟩ := compile_pathText path (some f)
  obtain ⟨rfl, rfl⟩ := hall hne
  rw [hcompile]
  rcases Matcher.ofPath_pathChars kept (some f) with ⟨ms, hpath, -⟩ | ⟨error, hpath, _, -, hroom⟩
  · have hmem : key ∈ kept.filter (·.text ≠ "") :=
      List.mem_filter.2 ⟨hkey, decide_eq_true (hne key hkey)⟩
    have hsegment := List.mem_map_of_mem (f := Segment.ofKey) hmem
    rw [← Segment.ofTexts_pathChars] at hsegment
    obtain ⟨m, hm⟩ := Matcher.exists_of_mem_segments hpath hsegment
    obtain ⟨p, hp, -⟩ := Matcher.exists_of_ofSegment_quote_key (hne key hkey) hm
    obtain ⟨error, herror⟩ := Pattern.ofText_quote_of_not_fits (hne key hkey) hrange hfits
    cases hp.symm.trans herror
  · rw [hpath]
    exact ⟨error, rfl, hroom.refusal⟩

end Query

/-! ## Following the keys of a path -/

theorem filter_eq_singleton {β γ : Type} [DecidableEq γ] {f : β → γ} {xs : List β}
    (h : (xs.map f).Nodup) {x : β} (hx : x ∈ xs) : (xs.filter fun y => f y == f x) = [x] := by
  induction xs with
  | nil => cases hx
  | cons y xs ih =>
    rw [List.map_cons, List.nodup_cons] at h
    obtain ⟨hnew, hrest⟩ := h
    rcases List.mem_cons.1 hx with rfl | hx
    · have hnone : (xs.filter fun y => f y == f x) = [] := by
        rw [List.filter_eq_nil_iff]
        intro z hz heq
        exact hnew (List.mem_map.2 ⟨z, hz, beq_iff_eq.1 heq⟩)
      rw [List.filter_cons, if_pos (beq_self_eq_true _), hnone]
    · have hne : ¬(f y == f x) = true := fun heq =>
        hnew (beq_iff_eq.1 heq ▸ List.mem_map.2 ⟨x, hx, rfl⟩)
      rw [List.filter_cons, if_neg hne, ih hrest hx]

/-- In a coherent and uniform document, the matcher of a key has one hit at the node that holds
an entry under that key. -/
theorem Matcher.Names.hits_eq {α : Type} [Tree α] {flags : Option Flags}
    (hflags : ∀ f ∈ flags, f.ignoreCase = false) {key : Key} {m : Matcher}
    (h : m.Names flags key) {node child : α} (hc : Coherent node) (hu : Uniform node)
    (hmem : (key, child) ∈ entries node) :
    m.hits node = [⟨node, key, child, [key], [], none⟩] := by
  obtain ⟨p, rfl, -, hspells⟩ := h
  have hhit : Matcher.hit? (α := α) ⟨some p, none, false⟩ = fun visit =>
      (Pattern.accepted (visit.key.text == key.text)).map fun captures =>
        ⟨visit.holder, visit.key, visit.node, visit.path, captures, none⟩ := by
    funext visit
    rw [Matcher.hit?, matchEntry_of_spells (hspells hflags)]
    rfl
  have hreach : Matcher.reach ⟨some p, none, false⟩ node = visits node [] :=
    if_neg Bool.false_ne_true
  have htexts : ((visits node []).map fun visit => visit.key.text).Nodup := by
    rw [visits, List.map_map]
    exact nodup_texts hc hu
  have hvisit : (⟨node, key, child, []⟩ : Visit α) ∈ visits node [] :=
    mem_visits_iff.2 ⟨rfl, rfl, hmem⟩
  rw [Matcher.hits_eq, hreach, hhit, filterMap_accepted, filter_eq_singleton htexts hvisit]
  rfl

namespace Query

variable {α : Type} [Tree α]

/-- The matchers of the keys of a path lead along it, and to nothing else. -/
theorem run_names {flags : Option Flags} (hflags : ∀ f ∈ flags, f.ignoreCase = false)
    {node leaf : α} {path : List Key} (h : Leads node path leaf) (hc : Coherent node)
    (hu : Uniform node) {ms : List Matcher} (hms : List.Forall₂ (Matcher.Names flags) path ms)
    (root : α) (index : Nat) (holder : α) (found : Location) :
    (run root index ms [⟨holder, node, found⟩]).map Candidate.location =
      [⟨found.path ++ path, found.captures, found.splats⟩] := by
  induction h generalizing ms index holder found with
  | here node =>
    cases hms
    rw [run_nil, List.append_nil]
    rfl
  | @down node child leaf key path hmem hrest ih =>
    cases hms with
    | cons hm hms =>
      have hextend : extend index found ⟨node, key, child, [key], [], none⟩ =
          ⟨node, child, ⟨found.path ++ [key], found.captures, found.splats⟩⟩ := by
        rw [extend, List.append_nil, Option.map_none, Option.toList_none, List.append_nil]
      rw [run_cons, step_of_not_isParent hm.isParent, stepInto_singleton,
        hm.hits_eq hflags hc hu hmem, List.map_singleton, hextend,
        ih (hc.child hmem) (hu.child hmem) hms, List.append_assoc]
      rfl

/-- The matchers of the keys of a path find the node that it leads to, and nothing else. -/
theorem location_find_of_names {flags : Option Flags}
    (hflags : ∀ f ∈ flags, f.ignoreCase = false) {root leaf : α} {path : List Key}
    (h : Leads root path leaf) (hne : path ≠ []) (hc : Coherent root) (hu : Uniform root)
    {ms : List Matcher} (hms : List.Forall₂ (Matcher.Names flags) path ms) :
    (find ⟨ms⟩ root).map Answer.location = [⟨path, [], []⟩] := by
  have hrun : (run root 0 ms [start root]).map Candidate.location = [⟨path, [], []⟩] :=
    run_names hflags h hc hu hms root 0 root {}
  have hpaths : ∀ candidate ∈ run root 0 ms [start root], candidate.location.path ≠ [] := by
    intro candidate hcandidate
    have hlocation := List.mem_map_of_mem (f := Candidate.location) hcandidate
    rw [hrun, List.mem_singleton] at hlocation
    rw [hlocation]
    exact hne
  rw [find, location_filterMap_answer? hpaths, hrun]

/-- The matchers of keys find only paths of that many keys. -/
theorem length_path_of_names {flags : Option Flags} {root : α} {keys : List Key}
    {ms : List Matcher} (hms : List.Forall₂ (Matcher.Names flags) keys ms) {answer : Answer α}
    (h : answer ∈ find ⟨ms⟩ root) : answer.location.path.length = keys.length := by
  obtain ⟨candidate, hcandidate, hanswer⟩ := mem_find_iff.1 h
  have hstart : ∀ candidate ∈ [start root], candidate.location.path.length = 0 := by
    intro candidate hcandidate
    rw [List.mem_singleton.1 hcandidate]
    rfl
  have hlength := length_path_of_mem_run (Matcher.plain_of_names hms) hstart hcandidate
  rw [(answer?_eq_some_iff.1 hanswer).2.2, Nat.zero_add, ← hms.length_eq] at hlength
  exact hlength

/-- **A flattened path selects its own leaf.** In a coherent and uniform document, a path that was
flattened with escapes is one of the document and leads to its leaf. Its text compiles with any
base flags that leave case alone, unless there are flags and no room for the expression of one of
its keys. If no key of the path is the empty name, the query has one answer, at that path and with
no captures and no splats; if one is, no answer is at that path. -/
theorem find_flatten [Regex.Engine] {root : α} (hc : Coherent root) (hu : Uniform root)
    {flags : Option Flags} (hflags : ∀ f ∈ flags, f.ignoreCase = false) {text : String}
    {path : List Key} {leaf : α} (h : (text, path, leaf) ∈ flatten root true) :
    resolve? root path = some leaf ∧
      ((∃ query, compile text flags = .ok query ∧
          (.name "" ∉ path → (find query root).map Answer.location = [⟨path, [], []⟩]) ∧
          (.name "" ∈ path → ∀ answer ∈ find query root, answer.location.path ≠ path)) ∨
        ∃ error, compile text flags = .error error ∧
          ∃ key ∈ path, ∃ used, Pattern.Oversized key.text used error ∧
            (.name "" ∉ path → used = flags)) := by
  obtain ⟨rfl, hmem⟩ := mem_leaves_of_mem_flatten h
  obtain ⟨hne, hleads, -⟩ := mem_leaves_iff.1 hmem
  obtain ⟨kept, used, hcompile, hpre, hall⟩ := compile_pathText path flags
  have hkeys : .name "" ∉ path → ∀ key ∈ path, key.text ≠ "" := fun hnone key hkey htext =>
    hnone (Key.text_eq_empty_iff.1 htext ▸ hkey)
  refine ⟨hleads.resolve?_eq hc.consistent, ?_⟩
  rcases Matcher.ofPath_pathChars kept used with
    ⟨ms, hpath, hms⟩ | ⟨error, hpath, key, hkey, hroom⟩
  · rw [hpath] at hcompile
    refine .inl ⟨⟨ms⟩, hcompile, fun hnone => ?_, fun hsome => ?_⟩
    · obtain ⟨rfl, rfl⟩ := hall (hkeys hnone)
      have hfilter : kept.filter (·.text ≠ "") = kept := by
        rw [List.filter_eq_self]
        exact fun key hkey => decide_eq_true (hkeys hnone key hkey)
      rw [hfilter] at hms
      exact location_find_of_names hflags hleads hne hc hu hms
    · -- the empty key has no matcher, so every answer lies above the leaf
      intro answer hanswer hsame
      have hlength := length_path_of_names hms hanswer
      have hshort : (path.filter (·.text ≠ "")).length < path.length := by
        rw [List.length_filter_lt_length_iff_exists]
        exact ⟨.name "", hsome, by decide⟩
      have hkept := (hpre.sublist.filter (·.text ≠ "")).length_le
      rw [hsame] at hlength
      omega
  · rw [hpath] at hcompile
    exact .inr ⟨error, hcompile, key, hpre.subset hkey, used, hroom,
      fun hnone => (hall (hkeys hnone)).2⟩

/-- A name with a dot is found, and one below the empty name, where flags are read, is not. -/
theorem find_flatten_dotted :
    (flatten (Json.object [("a.b", .array [.null]), ("", .object [("i", .null)])]) true).map
        (fun entry => (entry.1, entry.2.1)) =
      [("/a\\.b/0", [.name "a.b", .index 0]), ("//i", [.name "", .name "i"])] ∧
      (∃ query, compile "/a\\.b/0" (some .empty) = .ok query ∧
        (find query (Json.object [("a.b", .array [.null]), ("", .object [("i", .null)])])).map
          Answer.location = [⟨[.name "a.b", .index 0], [], []⟩]) ∧
      ∃ query, compile "//i" (some .empty) = .ok query ∧
        ∀ answer ∈ find query (Json.object [("a.b", .array [.null]), ("", .object [("i", .null)])]),
          answer.location.path ≠ [.name "", .name "i"] := by
  have hpaths : (flatten (Json.object [("a.b", .array [.null]), ("", .object [("i", .null)])])
      true).map (fun entry => (entry.1, entry.2.1)) =
        [("/a\\.b/0", [.name "a.b", .index 0]), ("//i", [.name "", .name "i"])] := by
    decide +kernel
  have hround := @find_flatten Json _ _
    (.object [("a.b", .array [.null]), ("", .object [("i", .null)])]) (by decide) (Json.uniform _)
    (some .empty) (by simp [Flags.empty])
  obtain ⟨⟨_, _, _⟩, hdotted, heq⟩ := List.mem_map.1 (hpaths ▸ List.mem_cons_self)
  cases heq
  obtain ⟨⟨_, _, _⟩, hempty, heq⟩ :=
    List.mem_map.1 (hpaths ▸ List.mem_cons_of_mem _ List.mem_cons_self)
  cases heq
  have hok : (compile "/a\\.b/0" (some .empty)).isOk = true := by decide +kernel
  have hok' : (compile "//i" (some .empty)).isOk = true := by decide +kernel
  refine ⟨hpaths, ?_, ?_⟩
  · obtain ⟨-, ⟨query, hquery, hfind, -⟩ | ⟨error, herror, -⟩⟩ := hround hdotted
    · exact ⟨query, hquery, hfind (by decide)⟩
    · rw [herror] at hok
      cases hok
  · obtain ⟨-, ⟨query, hquery, -, hnone⟩ | ⟨error, herror, -⟩⟩ := hround hempty
    · exact ⟨query, hquery, hnone (by decide)⟩
    · rw [herror] at hok'
      cases hok'

theorem coherent_single (name : String) : Coherent (Json.object [(name, .null)]) := by
  refine Json.coherent_object_iff.2 ⟨List.nodup_singleton _, fun member hmember => ?_⟩
  rw [List.mem_singleton.1 hmember]
  exact Json.coherent_leaf rfl

theorem flatten_single (name : String) :
    flatten (Json.object [(name, .null)]) true =
      [(pathText true [.name name], [.name name], .null)] := by
  have hleaves : leaves (Json.object [(name, .null)]) = [([.name name], .null)] := by
    rw [leaves]
    simp
    rfl
  rw [flatten, hleaves]
  rfl

theorem read?_replicate (n : Nat) : Range.read? (List.replicate n 'a') = none := by
  rw [Option.eq_none_iff_forall_ne_some]
  intro r hread
  rcases (Range.read?_eq_some_iff.1 hread).dot_or_comma_mem with hdot | hcomma
  · exact absurd (List.eq_of_mem_replicate hdot) (by decide)
  · exact absurd (List.eq_of_mem_replicate hcomma) (by decide)

/-- A long name, which without flags is compared as it is, is too large an expression under
flags. -/
theorem exists_error_of_long {name : String} (hrange : Range.read? name.toList = none)
    (hlength : 327680 < name.length) :
    ∃ error, compile (pathText true [.name name]) (some .empty) = .error error ∧
      error.refusal = .tooLarge 10485760 := by
  have hfits : ¬Regex.Engine.Fits
      (Pattern.sourceOf (String.ofList (quote isMark name.toList))) .empty := by
    intro hfits
    have hsource := Pattern.length_le_length_sourceOf_quote name
    have hsize : 32 * (Pattern.sourceOf (String.ofList (quote isMark name.toList))).length ≤
        10485760 := hfits
    omega
  have hne : ∀ key ∈ [Key.name name], key.text ≠ "" := by
    intro key hkey hempty
    rw [List.mem_singleton.1 hkey] at hempty
    have hzero : name.length = 0 := congrArg String.length hempty
    omega
  exact exists_error_of_not_fits hne List.mem_cons_self hrange hfits

/-- A name of 440000 letters under the empty set of flags. -/
theorem find_flatten_oversized :
    ∃ name : String, name = String.ofList (List.replicate 440000 'a') ∧
      Coherent (Json.object [(name, .null)]) ∧ Uniform (Json.object [(name, .null)]) ∧
      (∀ f ∈ some Flags.empty, f.ignoreCase = false) ∧
      flatten (Json.object [(name, .null)]) true =
        [(pathText true [.name name], [.name name], .null)] ∧
      name ≠ "" ∧
      ∃ error, compile (pathText true [.name name]) (some .empty) = .error error ∧
        error.refusal = .tooLarge 10485760 := by
  have hname : ∀ n : Nat, 327680 < n → ∀ name, name = String.ofList (List.replicate n 'a') →
      name ≠ "" ∧ ∃ error, compile (pathText true [.name name]) (some .empty) = .error error ∧
        error.refusal = .tooLarge 10485760 := by
    rintro n hn name rfl
    have hlength : (String.ofList (List.replicate n 'a')).length = n := by
      rw [String.length_ofList, List.length_replicate]
    refine ⟨fun hempty => ?_, exists_error_of_long ?_ (by omega)⟩
    · rw [hempty, String.length_empty] at hlength
      omega
    · rw [String.toList_ofList, read?_replicate]
  refine ⟨_, rfl, coherent_single _, Json.uniform _, ?_, flatten_single _,
    hname 440000 (by decide) _ rfl⟩
  intro f hf
  cases hf
  rfl

end Query

end PathQuery
