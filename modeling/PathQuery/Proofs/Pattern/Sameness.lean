import PathQuery.Proofs.Pattern.FlagSets

/-!
# Patterns that are the same

Two patterns can be the same without being equal. Ranges are compared by their ends, which decide
what they contain (`Range.contains_eq_of_same`), and expressions by their spelling and flags, from
which a compiled expression is read back (`FromSource.eq_of_source_eq`). In either case they accept
the same keys and nodes with the same captures (`agrees_of_same`).
-/

namespace PathQuery

open Number

namespace Range

variable {a b : Range}

/-- A range without its upper end contains the numbers between its ends. -/
theorem contains_of_halfOpen? {low high : Int64} (h : a.halfOpen? = some (low, high))
    (x : Double) :
    a.contains x = ((Double.ofInt low.toInt).le x && x.lt (.ofInt high.toInt)) := by
  cases a with
  | inclusive => cases h
  | exclusive => cases h; rfl
  | counted => cases h; rfl

theorem contains_eq_of_same (h : a.same b = true) : a.contains = b.contains := by
  unfold same at h
  cases ha : a.halfOpen? with
  | none =>
    cases hb : b.halfOpen? with
    | none =>
      rw [ha, hb] at h
      rw [eq_of_beq h]
    | some ends =>
      rw [ha, hb] at h
      cases h
  | some ends =>
    cases hb : b.halfOpen? with
    | none =>
      rw [ha, hb] at h
      cases h
    | some ends' =>
      rw [ha, hb] at h
      have hends : ends = ends' := eq_of_beq h
      funext x
      rw [contains_of_halfOpen? ha, contains_of_halfOpen? hb, hends]

end Range

namespace Pattern

/-- Expressions with one spelling under the same flags are one expression. -/
theorem FromSource.eq_of_source_eq {e e' : Expression} {flags : Flags}
    (h : (regex e flags).FromSource) (h' : (regex e' flags).FromSource)
    (hsource : e.source = e'.source) : regex e flags = regex e' flags := by
  obtain ⟨r, rfl, hread⟩ := h e flags rfl
  obtain ⟨r', rfl, hread'⟩ := h' e' flags rfl
  rw [hsource, hread'] at hread
  rw [Option.some.inj hread]

/-- Patterns that are the same accept the same keys and nodes, with the same captures. -/
theorem agrees_of_same {p q : Pattern} (hp : p.FromSource) (hq : q.FromSource)
    (h : p.same q = true) : p.Agrees q := by
  unfold same at h
  split at h
  · exact .refl any
  · rw [beq_iff_eq.1 h]
    exact .refl _
  · obtain ⟨hsource, hflags⟩ := Bool.and_eq_true_iff.1 h
    obtain rfl := beq_iff_eq.1 hflags
    rw [hp.eq_of_source_eq hq (beq_iff_eq.1 hsource)]
    exact .refl _
  · refine ⟨rfl, fun hsubject => ?_⟩
    rw [captures?_range hsubject, captures?_range hsubject, Range.contains_eq_of_same h]
  · exact .refl parent
  · rw [beq_iff_eq.1 h]
    exact .refl _
  · cases h

end Pattern

end PathQuery
