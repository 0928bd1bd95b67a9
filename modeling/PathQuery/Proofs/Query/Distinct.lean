import PathQuery.Proofs.Query.Parents
import PathQuery.Proofs.Query.Shape
import PathQuery.Proofs.Query.Widening

/-!
# No answer twice

Several ways of recursive searches can lead to one place, but no two answers have both one path and
the same splats. A step into the entries keeps candidates apart if what it leads to gives away where
it came from (`nodup_stepInto`). It does: the splats of a candidate are as many as the chain has
recursive matchers, so the new one can be told from those before it, and it tells how many keys the
step went along (`length_path_eq_of_splat_eq`). After a step to the parent not even paths are
shared. With at most one recursive matcher the lengths of paths tell the same as splats
(`nodup_paths_run`).
-/

namespace PathQuery

open PathQuery.Tree

variable {α : Type} [Tree α]

/-- Where a location is and what recursive searches went through to it, without captures. -/
def Location.trail (location : Location) : List Key × List Splat :=
  (location.path, location.splats)

/-- A splat tells how many keys a matcher went along. -/
theorem Matcher.length_path_eq_of_splat_eq {m : Matcher} {node node' : α} {hit hit' : Hit α}
    (hhit : hit ∈ m.hits node) (hhit' : hit' ∈ m.hits node') (h : hit.splat = hit'.splat) :
    hit.path.length = hit'.path.length := by
  by_cases hrecursive : m.recursive = true
  · obtain ⟨visit, -, hsome⟩ := mem_hits_iff.1 hhit
    obtain ⟨captures, -, rfl⟩ := hit?_eq_some_iff.1 hsome
    obtain ⟨visit', -, hsome'⟩ := mem_hits_iff.1 hhit'
    obtain ⟨captures', -, rfl⟩ := hit?_eq_some_iff.1 hsome'
    simp only [splatOf, hrecursive, if_true, Option.some.injEq] at h
    split at h
    · rw [h]
    · rw [Visit.path, Visit.path, h, List.length_append, List.length_append]
      rfl
  · rw [Bool.not_eq_true] at hrecursive
    rw [length_path_of_mem_hits hrecursive hhit, length_path_of_mem_hits hrecursive hhit']

namespace Query

variable {root : α} {index : Nat} {m : Matcher} {ms : List Matcher}
  {candidates : List (Candidate α)}

/-! ## One step -/

/-- A step into the entries keeps marks apart that tell where it came from and along which keys. -/
theorem nodup_stepInto {β : Type} {mark : Location → β}
    (hcoherent : ∀ candidate ∈ candidates, Coherent candidate.node)
    (hmark : ∀ first ∈ candidates, ∀ second ∈ candidates, ∀ hit ∈ m.hits first.node,
      ∀ hit' ∈ m.hits second.node,
        mark (extend index first.location hit).location =
            mark (extend index second.location hit').location →
          mark first.location = mark second.location ∧ hit.path = hit'.path)
    (h : (candidates.map fun candidate => mark candidate.location).Nodup) :
    ((stepInto index m candidates).map fun candidate => mark candidate.location).Nodup := by
  rw [stepInto, List.map_flatMap, List.nodup_flatMap]
  constructor
  · intro candidate hmem
    have hhits := Matcher.nodup_hits (hcoherent candidate hmem) m
    rw [List.Nodup, List.pairwise_map] at hhits
    rw [List.map_map, List.Nodup, List.pairwise_map]
    refine hhits.imp_of_mem ?_
    intro hit hit' hhit hhit' hne heq
    exact hne (hmark candidate hmem candidate hmem hit hhit hit' hhit' heq).2
  · rw [List.Nodup, List.pairwise_map] at h
    refine h.imp_of_mem ?_
    intro first second hfirst hsecond hne place hplace hplace'
    simp only [List.map_map, List.mem_map, Function.comp_apply] at hplace hplace'
    obtain ⟨hit, hhit, rfl⟩ := hplace
    obtain ⟨hit', hhit', heq⟩ := hplace'
    exact hne (hmark first hfirst second hsecond hit hhit hit' hhit' heq.symm).1

/-- After a step to the parent no two candidates have one path. -/
theorem nodup_paths_stepOut (hm : m.isParent = true) (candidates : List (Candidate α)) :
    ((stepOut root index m [] candidates).map fun candidate => candidate.location.path).Nodup := by
  obtain ⟨value, recursive, rfl⟩ := Matcher.eq_of_isParent hm
  rw [← Function.comp_def Location.path, ← List.map_map, map_location_stepOut]
  refine (path_sublist_filterMap_admitted? _).nodup ?_
  exact (List.filter_sublist.map Location.path).nodup (nodup_firstByPath _)

/-! ## A run -/

theorem coherent_of_mem_run (hc : Coherent root) {next : Candidate α}
    (h : next ∈ run root 0 ms [start root]) : Coherent next.node :=
  hc.of_leads (sound_of_mem_run hc.consistent ms 0 (sound_of_mem_start root) h).node

/-- What a step into the entries leads to gives away where it came from, by path and splats. -/
theorem eq_of_trail_extend_eq {first second : Candidate α}
    (hfirst : first ∈ run root 0 ms [start root]) (hsecond : second ∈ run root 0 ms [start root])
    {hit hit' : Hit α} (hhit : hit ∈ m.hits first.node) (hhit' : hit' ∈ m.hits second.node)
    (h : (extend index first.location hit).location.trail =
      (extend index second.location hit').location.trail) :
    first.location.trail = second.location.trail ∧ hit.path = hit'.path := by
  obtain ⟨hpath, hsplats⟩ := Prod.mk.inj h
  have hlength : first.location.splats.length = second.location.splats.length := by
    have hshape := (shaped_of_mem_run hfirst).splats.trans (shaped_of_mem_run hsecond).splats.symm
    simpa only [List.length_map] using congrArg List.length hshape
  obtain ⟨hbefore, hnew⟩ := List.append_inj hsplats hlength
  have hsplat : hit.splat = hit'.splat := by
    cases hs : hit.splat <;> cases hs' : hit'.splat <;> simp_all
  obtain ⟨hstart, hpiece⟩ :=
    List.append_inj' hpath (Matcher.length_path_eq_of_splat_eq hhit hhit' hsplat)
  exact ⟨Prod.ext hstart hbefore, hpiece⟩

/-- No two candidates after a chain have both one path and the same splats. -/
theorem nodup_trails_run (hc : Coherent root) (ms : List Matcher) :
    ((run root 0 ms [start root]).map fun candidate => candidate.location.trail).Nodup := by
  induction ms using List.reverseRecOn with
  | nil => exact List.nodup_singleton _
  | append_singleton ms m ih =>
    rw [run_concat, Nat.zero_add]
    cases hparent : m.isParent with
    | true =>
      rw [step_of_isParent hparent]
      apply List.Nodup.of_map Prod.fst
      rw [List.map_map]
      exact nodup_paths_stepOut hparent _
    | false =>
      rw [step_of_not_isParent hparent]
      refine nodup_stepInto (fun _ => coherent_of_mem_run hc) ?_ ih
      intro first hfirst second hsecond hit hhit hit' hhit' heq
      exact eq_of_trail_extend_eq hfirst hsecond hhit hhit' heq

/-- Without steps to the parent and with at most one recursive matcher no two candidates have one
path. -/
theorem nodup_paths_run (hc : Coherent root) (hparent : ∀ m ∈ ms, m.isParent = false)
    (hrecursive : ms.countP Matcher.recursive ≤ 1) :
    ((run root 0 ms [start root]).map fun candidate => candidate.location.path).Nodup := by
  induction ms using List.reverseRecOn with
  | nil => exact List.nodup_singleton _
  | append_singleton ms m ih =>
    have hbefore : ∀ m' ∈ ms, m'.isParent = false := fun m' h =>
      hparent m' (List.mem_append_left _ h)
    rw [List.countP_append, List.countP_singleton] at hrecursive
    rw [run_concat, Nat.zero_add, step_of_not_isParent (hparent m (by simp))]
    refine nodup_stepInto (fun _ => coherent_of_mem_run hc) ?_ (ih hbefore (by omega))
    intro first hfirst second hsecond hit hhit hit' hhit' heq
    by_cases hm : m.recursive = true
    · -- nothing before is recursive, so the candidates so far are equally deep
      rw [if_pos hm] at hrecursive
      have hplain : ∀ m' ∈ ms, m'.isParent = false ∧ m'.recursive = false := by
        intro m' h
        have hzero := List.countP_eq_zero.1 (show ms.countP Matcher.recursive = 0 by omega) m' h
        exact ⟨hbefore m' h, Bool.eq_false_iff.2 hzero⟩
      have hstart : ∀ candidate ∈ [start root], candidate.location.path.length = 0 :=
        fun candidate h => by rw [List.mem_singleton.1 h]; rfl
      apply List.append_inj heq
      rw [length_path_of_mem_run hplain hstart hfirst,
        length_path_of_mem_run hplain hstart hsecond]
    · rw [Bool.not_eq_true] at hm
      apply List.append_inj' heq
      rw [Matcher.length_path_of_mem_hits hm hhit, Matcher.length_path_of_mem_hits hm hhit']

/-! ## Answers -/

/-- **No answer twice.** In a coherent document no two answers of a chain have both one path and the
same splats, whatever its recursive matchers and steps to the parent are. Without such steps and
with at most one recursive matcher no two answers have one path. -/
theorem find_nodup (hc : Coherent root) (ms : List Matcher) :
    ((find ⟨ms⟩ root).map Answer.trail).Nodup ∧
      ((∀ m ∈ ms, m.isParent = false) → ms.countP Matcher.recursive ≤ 1 →
        ((find ⟨ms⟩ root).map fun answer => answer.location.path).Nodup) := by
  refine ⟨(map_find_sublist Location.trail ms root).nodup (nodup_trails_run hc ms), ?_⟩
  intro hparent hrecursive
  exact (map_find_sublist Location.path ms root).nodup (nodup_paths_run hc hparent hrecursive)

/-- Two recursive searches after a step to the parent reach one entry in three ways. -/
theorem find_nodup_overlapping :
    Coherent (Json.object [("a", .object [("b", .object [("c", .null)])])]) ∧
      (find ⟨[⟨none, none, false⟩, ⟨some .parent, none, false⟩, ⟨none, none, true⟩,
          ⟨some .any, none, true⟩]⟩
        (Json.object [("a", .object [("b", .object [("c", .null)])])])).map Answer.trail =
          [([.name "a", .name "b"], [⟨2, [.name "a"]⟩, ⟨3, []⟩]),
            ([.name "a", .name "b", .name "c"], [⟨2, [.name "a"]⟩, ⟨3, [.name "b"]⟩]),
            ([.name "a", .name "b", .name "c"], [⟨2, [.name "a", .name "b"]⟩, ⟨3, []⟩])] ∧
      ((find ⟨[⟨none, none, false⟩, ⟨some .parent, none, false⟩, ⟨none, none, true⟩,
          ⟨some .any, none, true⟩]⟩
        (Json.object [("a", .object [("b", .object [("c", .null)])])])).map Answer.trail).Nodup ∧
      ((find ⟨[⟨none, none, false⟩, ⟨none, none, true⟩]⟩
        (Json.object [("a", .object [("b", .object [("c", .null)])])])).map
          fun answer => answer.location.path).Nodup := by
  have hc : Coherent (Json.object [("a", .object [("b", .object [("c", .null)])])]) := by decide
  refine ⟨hc, by decide +kernel, (find_nodup hc _).1, (find_nodup hc _).2 ?_ (by decide)⟩
  exact List.forall_mem_cons.2 ⟨rfl, List.forall_mem_singleton.2 rfl⟩

end Query

end PathQuery
