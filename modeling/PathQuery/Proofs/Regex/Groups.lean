import PathQuery.Proofs.Regex.Ways

/-!
# How many texts are captured

Every way of matching an expression has one cell for each of its groups, whichever
branches took part (`length_of_mem_ways`), and so has the match that a search finds
(`length_of_search?`).
-/

namespace PathQuery.Regex

theorem length_unused (e : Regex) : (unused e).length = e.groups := by
  simp [unused]

/-- A way has a cell for each group. -/
theorem length_of_mem_ways {mode : Mode} {text : List Char} {e : Regex} {i : Nat}
    {way : Captured × Nat} (h : way ∈ ways mode text e i) : way.1.length = e.groups := by
  induction e generalizing i way with
  | empty => simp_all [ways, groups]
  | textStart => simp_all [ways, groups]
  | textEnd => simp_all [ways, groups]
  | char c => simp_all [ways, groups]
  | anyRun =>
    obtain ⟨n, -, rfl⟩ := List.mem_map.1 h
    rfl
  | anyOne =>
    rw [ways, List.mem_append] at h
    rcases h with h | h
    · simp_all [groups]
    · simp_all [groups]
  | cat a b iha ihb =>
    obtain ⟨first, hfirst, h⟩ := List.mem_flatMap.1 h
    obtain ⟨second, hsecond, rfl⟩ := List.mem_map.1 h
    simp only [List.length_append, groups, iha hfirst, ihb hsecond]
  | alt a b iha ihb =>
    rcases List.mem_append.1 h with h | h
    · obtain ⟨first, hfirst, rfl⟩ := List.mem_map.1 h
      simp only [List.length_append, groups, iha hfirst, length_unused]
    · obtain ⟨second, hsecond, rfl⟩ := List.mem_map.1 h
      simp only [List.length_append, groups, ihb hsecond, length_unused]
  | group e ih =>
    obtain ⟨inner, hinner, rfl⟩ := List.mem_map.1 h
    simp only [List.length_cons, groups, ih hinner]
  | plainGroup e ih => exact ih h

/-- What a search finds is a way from the place where it starts. -/
theorem mem_ways_of_search? {e : Regex} {mode : Mode} {text : List Char} {found : Found}
    (h : search? e mode text = some found) :
    found.whole.start ≤ text.length ∧
      (found.captured, found.whole.stop) ∈
        ways mode (text.map mode.canon) e found.whole.start := by
  rw [search?_eq] at h
  obtain ⟨start, hstart, h⟩ := List.exists_of_findSome?_eq_some h
  obtain ⟨way, hway, rfl⟩ := Option.map_eq_some_iff.1 h
  exact ⟨Nat.le_of_lt_succ (List.mem_range.1 hstart), List.mem_of_mem_head? hway⟩

/-- The match that a search finds has a cell for each group. -/
theorem length_of_search? {e : Regex} {mode : Mode} {text : List Char} {found : Found}
    (h : search? e mode text = some found) : found.captured.length = e.groups :=
  length_of_mem_ways (mem_ways_of_search? h).2

end PathQuery.Regex
