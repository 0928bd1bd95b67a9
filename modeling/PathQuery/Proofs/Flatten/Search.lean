import PathQuery.Proofs.Flatten.Names
import PathQuery.Proofs.Query.QuotedEntry

/-!
# Flattening and searching

Flattening recurses on the document, and the query `**` walks it with a list of pending entries.
Both go in pre-order: the leaves are the visits without entries below them
(`leaves_eq_filterMap`), and the query finds every visit (`find_any`). Flattening puts each leaf
under a text of its own, so it keeps them all (`flatten_eq`). `find_flatten_leaves` says that the
two enumerate the same tree.
-/

namespace PathQuery

open PathQuery.Tree

variable {α : Type} [Tree α]

/-! ## Leaves in pre-order -/

namespace Tree

/-- The leaf that a visit is, with its path, if it has no entries. -/
def leafVisit? (visit : Visit α) : Option (List Key × α) :=
  if (entries visit.node).isEmpty then some (visit.path, visit.node) else none

theorem preorder_of_entries_eq_nil {node : α} (h : entries node = []) (descent : List Key) :
    preorder node descent = [] := by
  rw [preorder_eq, visits, h]
  rfl

theorem map_append_leaves (node : α) (descent : List Key) :
    (leaves node).map (fun leaf => (descent ++ leaf.1, leaf.2)) =
      (preorder node descent).filterMap leafVisit? := by
  induction node using induction_on_entries generalizing descent with
  | h node ih =>
    rw [leaves_eq, preorder_eq, List.map_flatMap, List.filterMap_flatMap, visits,
      List.flatMap_map]
    refine List.flatMap_congr fun entry hentry => ?_
    by_cases hempty : (entries entry.2).isEmpty = true
    · have hbelow : ∀ descent, preorder entry.2 descent = [] :=
        preorder_of_entries_eq_nil (List.isEmpty_iff.1 hempty)
      simp [leafVisit?, Visit.path, hempty, hbelow]
    · have hbelow := ih entry hentry (descent ++ [entry.1])
      simp [leafVisit?, Visit.path, hempty, ← hbelow, Function.comp_def]

/-- The leaves below a node are the visits without entries, in pre-order. -/
theorem leaves_eq_filterMap (node : α) :
    leaves node = (preorder node []).filterMap leafVisit? := by
  rw [← map_append_leaves]
  exact (List.map_id _).symm

theorem nodup_paths_leaves {node : α} (h : Coherent node) :
    ((leaves node).map Prod.fst).Nodup := by
  rw [leaves_eq_filterMap]
  refine (Matcher.map_filterMap_sublist (fun visit leaf hleaf => ?_) _).nodup (nodup_preorder h [])
  unfold leafVisit? at hleaf
  split at hleaf
  · exact congrArg Prod.fst (Option.some.inj hleaf).symm
  · cases hleaf

/-- The paths visited are those that resolve, but for the root's. -/
theorem mem_paths_preorder_iff {root : α} (hc : Coherent root) {path : List Key} :
    path ∈ (preorder root []).map Visit.path ↔ path ≠ [] ∧ (resolve? root path).isSome := by
  rw [List.mem_map, Option.isSome_iff_exists]
  simp only [hc.resolve?_eq_some_iff]
  constructor
  · rintro ⟨visit, hvisit, rfl⟩
    obtain ⟨path, hne, hpath, hleads⟩ := exists_path_of_mem_preorder hvisit
    rw [hpath, List.nil_append]
    exact ⟨hne, _, hleads⟩
  · rintro ⟨hne, node, hleads⟩
    obtain ⟨descent, key, rfl⟩ := (List.eq_nil_or_concat path).resolve_left hne
    rw [List.concat_eq_append] at hleads ⊢
    obtain ⟨holder, hholder, hmem⟩ := leads_concat_iff.1 hleads
    exact ⟨_, mem_preorder_of_leads hholder hmem [], rfl⟩

end Tree

/-! ## No leaf is lost -/

theorem nodup_texts_leaves {root : α} (hc : Coherent root) (hu : Uniform root) {escaped : Bool}
    (hnames : escaped = true ∨ SlashFree root) :
    ((leaves root).map fun leaf => pathText escaped leaf.1).Nodup := by
  have hpaths := nodup_paths_leaves hc
  rw [List.Nodup, List.pairwise_map] at hpaths ⊢
  refine hpaths.imp_of_mem fun hfirst hsecond hne htext => hne ?_
  exact eq_of_pathText_eq hc hu hnames (leads_of_mem_leaves hfirst).1
    (leads_of_mem_leaves hsecond).1 htext

/-- Flattening keeps every leaf, under a text of its own. -/
theorem flatten_eq {root : α} (hc : Coherent root) (hu : Uniform root) {escaped : Bool}
    (hnames : escaped = true ∨ SlashFree root) :
    flatten root escaped = (leaves root).map fun leaf =>
      (pathText escaped leaf.1, leaf.1, leaf.2) := by
  refine Ordered.ofPairs_eq_of_nodup ?_
  rw [List.map_map]
  exact nodup_texts_leaves hc hu hnames

/-- The entry of a flattened document at a path, if a leaf is there: a scalar, or an object or array
without entries. -/
def flatLeaf? (root : α) (escaped : Bool) (path : List Key) :
    Option (String × List Key × α) :=
  (resolve? root path).bind fun node =>
    if (scalar? node).isSome || (entries node).isEmpty then
      some (pathText escaped path, path, node)
    else none

theorem flatLeaf?_of_mem_preorder {root : α} (hc : Coherent root) {visit : Visit α}
    (h : visit ∈ preorder root []) (escaped : Bool) :
    flatLeaf? root escaped visit.path =
      (leafVisit? visit).map fun leaf => (pathText escaped leaf.1, leaf.1, leaf.2) := by
  obtain ⟨path, -, hpath, hleads⟩ := exists_path_of_mem_preorder h
  rw [List.nil_append] at hpath
  rw [flatLeaf?, hpath, hc.resolve?_eq_some_iff.2 hleads, Option.bind_some, leafVisit?, hpath]
  by_cases hempty : (entries visit.node).isEmpty = true
  · rw [hempty, Bool.or_true]
    rfl
  · have hscalar : (scalar? visit.node).isSome = false := by
      rw [Bool.eq_false_iff]
      exact fun hsome => hempty (List.isEmpty_iff.2 (entries_of_scalar visit.node hsome))
    rw [hscalar, if_neg hempty, Bool.false_or, if_neg hempty]
    rfl

/-- Flattening goes through the paths in pre-order and keeps those at which there is a leaf. -/
theorem flatten_eq_filterMap {root : α} (hc : Coherent root) (hu : Uniform root) {escaped : Bool}
    (hnames : escaped = true ∨ SlashFree root) :
    flatten root escaped =
      ((preorder root []).map Visit.path).filterMap (flatLeaf? root escaped) := by
  rw [flatten_eq hc hu hnames, leaves_eq_filterMap, List.map_filterMap, List.filterMap_map]
  exact List.filterMap_congr fun visit hvisit => (flatLeaf?_of_mem_preorder hc hvisit escaped).symm

/-! ## Everything found -/

namespace Query

theorem compile_wildcards [Regex.Engine] (flags : Option Flags) :
    compile "**" flags = .ok ⟨[⟨some .any, none, true⟩]⟩ := rfl

/-- The query for everything finds every visit, in pre-order. -/
theorem find_any (root : α) :
    (find ⟨[⟨some .any, none, true⟩]⟩ root).map (fun answer => answer.location.path) =
      (preorder root []).map Visit.path := by
  have hreach : Matcher.reach ⟨some .any, none, true⟩ root = preorder root [] := if_pos rfl
  rw [find_singleton rfl, Matcher.find, Matcher.hits_eq, hreach, List.map_map,
    List.map_filterMap]
  exact congrFun List.filterMap_eq_map _

/-- **Flattening and searching enumerate the same tree.** In a coherent and uniform document the
query for everything finds each path below the root once, in pre-order. Flattening with escapes, or
without them if no name has a slash, has one entry for each of these paths at which there is a
leaf, in the same order, and no two entries under one text. -/
theorem find_flatten_leaves [Regex.Engine] {root : α} (hc : Coherent root) (hu : Uniform root)
    (flags : Option Flags) :
    ∃ query, compile "**" flags = .ok query ∧
      ∃ paths, (find query root).map (fun answer => answer.location.path) = paths ∧
        paths = (preorder root []).map Visit.path ∧ paths.Nodup ∧
        (∀ path, path ∈ paths ↔ path ≠ [] ∧ (resolve? root path).isSome) ∧
        ∀ escaped, (escaped = true ∨ SlashFree root) →
          flatten root escaped = paths.filterMap (flatLeaf? root escaped) ∧
            ((flatten root escaped).map Prod.fst).Nodup := by
  refine ⟨_, compile_wildcards flags, _, rfl, find_any root, ?_, fun path => ?_,
    fun escaped hnames => ?_⟩
  · rw [find_any]
    exact nodup_preorder hc []
  · rw [find_any]
    exact mem_paths_preorder_iff hc
  · rw [find_any, ← flatten_eq_filterMap hc hu hnames]
    refine ⟨rfl, ?_⟩
    rw [flatten_eq hc hu hnames, List.map_map]
    exact nodup_texts_leaves hc hu hnames

/-- An empty name, one with a backslash, and two leaves that share a text without escapes. -/
theorem find_flatten_leaves_slashes :
    ∃ root : Json,
      root = .object [("a", .object [("", .object []), ("b", .null)]), ("a/b", .bool true),
        ("a\\", .array [.null])] ∧
      Coherent root ∧ Uniform root ∧
      ∃ query, compile "**" none = .ok query ∧
        (find query root).map (fun answer => answer.location.path) =
          [[.name "a"], [.name "a", .name ""], [.name "a", .name "b"], [.name "a/b"],
            [.name "a\\"], [.name "a\\", .index 0]] ∧
        (flatten root true).map (fun entry => (entry.1, entry.2.1)) =
          [("/a/", [.name "a", .name ""]), ("/a/b", [.name "a", .name "b"]),
            ("/a\\/b", [.name "a/b"]), ("/a\\\\/0", [.name "a\\", .index 0])] ∧
        ((flatten root true).map Prod.fst).Nodup := by
  refine ⟨_, rfl, by decide, Json.uniform _, ?_⟩
  obtain ⟨query, hquery, paths, hpaths, hpreorder, -, -, hflatten⟩ :=
    @find_flatten_leaves Json _ _ (.object [("a", .object [("", .object []), ("b", .null)]),
      ("a/b", .bool true), ("a\\", .array [.null])]) (by decide) (Json.uniform _) none
  obtain ⟨hentries, hnodup⟩ := hflatten true (.inl rfl)
  have hvisited : paths = [[.name "a"], [.name "a", .name ""], [.name "a", .name "b"],
      [.name "a/b"], [.name "a\\"], [.name "a\\", .index 0]] := by
    rw [hpreorder, ← below_eq_preorder]
    decide +kernel
  refine ⟨query, hquery, hpaths.trans hvisited, ?_, hnodup⟩
  rw [hentries, hvisited]
  decide +kernel

end Query

end PathQuery
