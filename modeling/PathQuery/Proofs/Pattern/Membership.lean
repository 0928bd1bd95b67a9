import PathQuery.Proofs.Number.Rounding
import PathQuery.Proofs.Pattern.Captures
import PathQuery.Proofs.Pattern.Sameness

/-!
# Which integers a range contains

A range spans the integers between its ends (`Range.Spans`), but integers and ends are compared as
doubles, and the upper end of a counted range stays within words. Two integers are compared as they
should be if one of them has at most fifty-three binary digits (`contains_ofInt_iff`). Among large
integers the two kinds of upper end go wrong in different directions: an inclusive range still
accepts all that it spans (`contains_of_spans`), and a range without its upper end accepts nothing
from there on (`lt_upper_of_contains`).
-/

namespace PathQuery

open Number

/-- The integer that a key or a leaf is. -/
def Subject.integer? : Subject → Option Int
  | key (.index i) => some i
  | leaf (.integer n) => some n.toInt
  | leaf (.unsigned n) => some n.toNat
  | _ => none

namespace Range

variable {range : Range} {n : Int}

def lower : Range → Int
  | inclusive low _ => low.toInt
  | exclusive low _ => low.toInt
  | counted start _ => start.toInt

def upper : Range → Int
  | inclusive _ high => high.toInt
  | exclusive _ high => high.toInt
  | counted start count => start.toInt + count.toInt

/-- Whether an integer lies between the ends, the upper one included only in an inclusive range. -/
def Spans (range : Range) (n : Int) : Prop :=
  match range with
  | inclusive low high => low.toInt ≤ n ∧ n ≤ high.toInt
  | exclusive low high => low.toInt ≤ n ∧ n < high.toInt
  | counted start count => start.toInt ≤ n ∧ n < start.toInt + count.toInt

instance (range : Range) (n : Int) : Decidable (range.Spans n) := by
  cases range <;> exact instDecidableAnd

/-! ## The end of a counted range -/

theorem toInt_clamp (n : Int) : (clamp n).toInt = max (-2 ^ 63) (min n (2 ^ 63 - 1)) := by
  have hmin := Int64.toInt_minValue
  have hmax := Int64.toInt_maxValue
  unfold clamp
  by_cases hlow : Int64.minValue.toInt ≤ n
  · by_cases hhigh : n ≤ Int64.maxValue.toInt
    · rw [Int64.toInt_ofIntClamp hlow hhigh]
      omega
    · rw [Int64.ofIntClamp, dif_pos hlow, dif_neg hhigh]
      omega
  · rw [Int64.ofIntClamp, dif_neg hlow]
    omega

/-! ## What is contained -/

/-- Integers are compared exactly if they, or both ends, have at most fifty-three digits. -/
theorem contains_ofInt_iff (hsmall : n.natAbs < 2 ^ 53 ∨
      range.lower.natAbs < 2 ^ 53 ∧ range.upper.natAbs < 2 ^ 53) :
    range.contains (.ofInt n) = true ↔ range.Spans n := by
  have hlower : range.lower.natAbs < 2 ^ 53 ∨ n.natAbs < 2 ^ 53 := by omega
  have hupper : n.natAbs < 2 ^ 53 ∨ range.upper.natAbs < 2 ^ 53 := by omega
  cases range with
  | inclusive low high =>
    rw [contains, Bool.and_eq_true]
    exact and_congr (Double.ofInt_le_ofInt_iff hlower) (Double.ofInt_le_ofInt_iff hupper)
  | exclusive low high =>
    rw [contains, Bool.and_eq_true]
    exact and_congr (Double.ofInt_le_ofInt_iff hlower) (Double.ofInt_lt_ofInt_iff hupper)
  | counted start count =>
    rw [contains, Bool.and_eq_true]
    refine and_congr (Double.ofInt_le_ofInt_iff hlower) ?_
    have hclamp := toInt_clamp (start.toInt + count.toInt)
    simp only [upper] at hupper
    rw [Double.ofInt_lt_ofInt_iff (by omega), hclamp]
    omega

/-- An inclusive range contains all that it spans. -/
theorem contains_of_spans (hrange : range.halfOpen? = none) (h : range.Spans n) :
    range.contains (.ofInt n) = true := by
  cases range with
  | inclusive low high =>
    rw [contains, Bool.and_eq_true]
    exact ⟨Double.ofInt_le_ofInt h.1, Double.ofInt_le_ofInt h.2⟩
  | exclusive low high => cases hrange
  | counted start count => cases hrange

/-- A range without its upper end contains nothing from there on. -/
theorem lt_upper_of_contains (hn : -2 ^ 63 ≤ n) (hrange : range.halfOpen? ≠ none)
    (h : range.contains (.ofInt n) = true) : n < range.upper := by
  cases range with
  | inclusive low high => exact absurd rfl hrange
  | exclusive low high =>
    rw [contains, Bool.and_eq_true] at h
    exact Double.lt_of_ofInt_lt_ofInt h.2
  | counted start count =>
    rw [contains, Bool.and_eq_true] at h
    have hlt := Double.lt_of_ofInt_lt_ofInt h.2
    rw [toInt_clamp] at hlt
    rw [upper]
    omega

end Range

namespace Pattern

theorem number?_of_integer? {subject : Subject} {n : Int} (h : subject.integer? = some n) :
    subject.number? = some (.ofInt n) ∧ -2 ^ 63 ≤ n ∧ ∀ other, subject ≠ .pattern other := by
  unfold Subject.integer? at h
  split at h
  · obtain rfl := Option.some.inj h
    exact ⟨rfl, by omega, nofun⟩
  · rename_i word
    obtain rfl := Option.some.inj h
    exact ⟨rfl, word.le_toInt, nofun⟩
  · obtain rfl := Option.some.inj h
    exact ⟨rfl, by omega, nofun⟩
  · cases h

theorem isSome_captures?_range_iff {subject : Subject} {n : Int}
    (h : subject.integer? = some n) (range : Range) :
    ((Pattern.range range).captures? subject).isSome ↔ range.contains (.ofInt n) = true := by
  obtain ⟨hnumber, -, hsubject⟩ := number?_of_integer? h
  rw [captures?_range hsubject, hnumber, Option.bind_some, accepted]
  cases range.contains (.ofInt n) <;> simp

/-- **A range accepts the integers that it spans**, keys and leaves alike, if the integer or both
ends have at most fifty-three binary digits. Among larger ones an inclusive range accepts all that
it spans and perhaps more, and a range without its upper end accepts nothing from there on. -/
theorem isSome_captures?_range_iff_spans (range : Range) (subject : Subject) (n : Int)
    (h : subject.integer? = some n) :
    (n.natAbs < 2 ^ 53 ∨ range.lower.natAbs < 2 ^ 53 ∧ range.upper.natAbs < 2 ^ 53 →
        (((Pattern.range range).captures? subject).isSome ↔ range.Spans n)) ∧
      (range.halfOpen? = none → range.Spans n →
        ((Pattern.range range).captures? subject).isSome) ∧
      (range.halfOpen? ≠ none → ((Pattern.range range).captures? subject).isSome →
        n < range.upper) := by
  obtain ⟨-, hlow, -⟩ := number?_of_integer? h
  rw [isSome_captures?_range_iff h]
  exact ⟨Range.contains_ofInt_iff, Range.contains_of_spans, Range.lt_upper_of_contains hlow⟩

/-- The largest unsigned word and two small ends. -/
theorem isSome_captures?_range_iff_spans_largest :
    (Subject.leaf (.unsigned 18446744073709551615)).integer? = some 18446744073709551615 ∧
      (((Pattern.range (.counted 3 4)).captures?
        (.leaf (.unsigned 18446744073709551615))).isSome ↔
          Range.Spans (.counted 3 4) 18446744073709551615) :=
  ⟨rfl, (isSome_captures?_range_iff_spans (.counted 3 4) (.leaf (.unsigned 18446744073709551615))
    18446744073709551615 rfl).1 (.inr (by decide))⟩

/-- Above fifty-three binary digits an inclusive range accepts the integer below its lower end, a
range without its upper end refuses its only member, and so does one that ends outside words. -/
theorem captures?_range_rounded :
    (((Pattern.range (.inclusive 9007199254740993 9007199254740993)).captures?
          (.leaf (.integer 9007199254740992))).isSome ∧
        ¬Range.Spans (.inclusive 9007199254740993 9007199254740993) 9007199254740992) ∧
      (((Pattern.range (.exclusive 9007199254740992 9007199254740993)).captures?
          (.key (.index 9007199254740992))) = none ∧
        Range.Spans (.exclusive 9007199254740992 9007199254740993) 9007199254740992) ∧
      (((Pattern.range (.counted 9223372036854775806 5)).captures?
          (.leaf (.unsigned 9223372036854775808))) = none ∧
        Range.Spans (.counted 9223372036854775806 5) 9223372036854775808) := by
  decide +kernel

end Pattern

end PathQuery
