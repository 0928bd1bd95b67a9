import PathQuery.Proofs.Regex.Language

/-!
# Wider modes

A mode is wider than another one if it takes more characters for the same and covers more of
them with wildcards (`Mode.Within`). In a wider mode an expression stops wherever it stopped
before (`stops_subset`), so it matches every text that it matched before
(`isSome_captures?_of_within`). Nothing is asked of the expression: it may have marks of the
ends anywhere, as those of tokens with odd brackets do.
-/

namespace PathQuery.Regex

/-- What one mode takes for the same character, or covers, another one does as well. -/
structure Mode.Within (narrow wide : Mode) : Prop where
  canon : ∀ c d, narrow.canon c = narrow.canon d → wide.canon c = wide.canon d
  covers : ∀ c, narrow.covers c = true → wide.covers c = true

theorem strides_subset {p q : Char → Bool} (h : ∀ c, p c = true → q c = true)
    (text : List Char) : strides p text ⊆ strides q text := by
  intro n hn
  obtain ⟨s, rest, htext, hlength, hs⟩ := mem_strides_iff.1 hn
  exact mem_strides_iff.2 ⟨s, rest, htext, hlength, fun c hc => h c (hs c hc)⟩

section Within

variable {narrow wide : Mode} (h : narrow.Within wide) (text : List Char)

include h

theorem any_canon_of_within (c : Char) {i : Nat}
    (hc : (text.map narrow.canon)[i]?.any (· == narrow.canon c) = true) :
    (text.map wide.canon)[i]?.any (· == wide.canon c) = true := by
  rw [List.getElem?_map, Option.any_map, any_getElem?_iff] at hc ⊢
  obtain ⟨d, rest, hdrop, hd⟩ := hc
  exact ⟨d, rest, hdrop, beq_iff_eq.2 (h.canon d c (beq_iff_eq.1 hd))⟩

theorem any_covers_of_within {i : Nat} (hc : (text.map narrow.canon)[i]?.any narrow.covers = true) :
    (text.map wide.canon)[i]?.any wide.covers = true := by
  rw [List.getElem?_map, Option.any_map, any_getElem?_iff] at hc ⊢
  obtain ⟨d, rest, hdrop, hd⟩ := hc
  rw [covers_canon] at hd
  exact ⟨d, rest, hdrop, (covers_canon wide d).trans (h.covers d hd)⟩

/-- In a wider mode an expression stops at every place where it stopped before. -/
theorem stops_subset (e : Regex) (i : Nat) :
    stops narrow (text.map narrow.canon) e i ⊆ stops wide (text.map wide.canon) e i := by
  induction e generalizing i with
  | empty => exact List.Subset.refl _
  | textStart => exact List.Subset.refl _
  | textEnd =>
    rw [stops, stops, ways, ways, List.length_map, List.length_map]
    exact List.Subset.refl _
  | char c =>
    intro j hj
    rw [stops, ways] at hj ⊢
    split at hj
    · rename_i hc
      rw [if_pos (any_canon_of_within h text c hc)]
      exact hj
    · cases hj
  | anyRun =>
    rw [stops, stops, ways, ways, ← List.map_drop, ← List.map_drop,
      strides_map _ _ (covers_canon narrow), strides_map _ _ (covers_canon wide)]
    exact List.map_subset _ (List.map_subset _ (strides_subset h.covers _))
  | anyOne =>
    intro j hj
    rw [stops, ways, List.map_append, List.mem_append] at hj ⊢
    refine hj.imp_left fun hj => ?_
    split at hj
    · rename_i hc
      rw [if_pos (any_covers_of_within h text hc)]
      exact hj
    · cases hj
  | cat a b iha ihb =>
    intro j hj
    rw [stops_cat, List.mem_flatMap] at hj ⊢
    obtain ⟨k, hk, hj⟩ := hj
    exact ⟨k, iha i hk, ihb k hj⟩
  | alt a b iha ihb =>
    intro j hj
    rw [stops_alt, List.mem_append] at hj ⊢
    exact hj.imp (fun hj => iha i hj) (fun hj => ihb i hj)
  | group e ih =>
    rw [stops_group, stops_group]
    exact ih i
  | plainGroup e ih => exact ih i

omit h in
theorem isSome_captures?_iff (e : Regex) (mode : Mode) :
    (e.captures? mode text).isSome ↔
      ∃ start ≤ text.length, ∃ stop, stop ∈ stops mode (text.map mode.canon) e start := by
  rw [captures?, Option.isSome_map, search?_eq, List.findSome?_isSome_iff]
  simp only [List.mem_range, Nat.lt_succ_iff, Option.isSome_map, stops, List.mem_map]
  refine exists_congr fun start => and_congr_right fun _ => ?_
  constructor
  · intro hsome
    obtain ⟨way, hway⟩ := Option.isSome_iff_exists.1 hsome
    exact ⟨way.2, way, List.mem_of_mem_head? hway, rfl⟩
  · rintro ⟨_, way, hway, -⟩
    exact List.isSome_head?.2 (List.ne_nil_of_mem hway)

/-- In a wider mode an expression matches every text that it matched before. -/
theorem isSome_captures?_of_within (e : Regex) (hmatch : (e.captures? narrow text).isSome) :
    (e.captures? wide text).isSome := by
  rw [isSome_captures?_iff] at hmatch ⊢
  obtain ⟨start, hstart, stop, hstop⟩ := hmatch
  exact ⟨start, hstart, stop, stops_subset h text e start hstop⟩

end Within

end PathQuery.Regex
