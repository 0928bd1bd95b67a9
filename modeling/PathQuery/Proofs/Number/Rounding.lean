import Mathlib.Algebra.Group.Nat.Defs
import PathQuery.Number.Double

/-!
# Rounding keeps the order

Whole numbers are compared as doubles. Rounding to multiples of a step goes by at most half of the
step (`two_mul_roundTo_le`, `two_mul_le_roundTo`), so it passes no multiple of the step
(`le_roundTo`, `roundTo_le`) and keeps the order (`roundTo_le_roundTo`). The step grows with the
magnitude, but only at powers of two, which are multiples of the steps on both sides
(`rounded_le_rounded`). So doubles are in the order of the integers that they come from
(`ofInt_le_ofInt`), and of two integers that become the same double both are large
(`ofInt_le_ofInt_iff`).
-/

namespace PathQuery.Number.Double

/-! ## Rounding to multiples of a step -/

section Step

variable {step m n k : Nat}

theorem dvd_roundTo (step n : Nat) : step ∣ roundTo step n 1 := by
  simp only [roundTo]
  split
  · exact Nat.dvd_mul_left _ _
  · exact Nat.dvd_mul_left _ _

/-- What is rounded to, by the rest that `n` leaves. -/
theorem roundTo_cases (step n : Nat) :
    (roundTo step n 1 = n - n % step + step ∧ step ≤ 2 * (n % step)) ∨
      (roundTo step n 1 = n - n % step ∧ 2 * (n % step) ≤ step) := by
  have hbelow : n / step * step = n - n % step := by
    have := Nat.div_add_mod' n step
    omega
  simp only [roundTo, Nat.one_mul, Nat.add_mul, hbelow]
  split
  · rename_i h
    simp only [Bool.or_eq_true, Bool.and_eq_true, decide_eq_true_eq, beq_iff_eq] at h
    left
    omega
  · rename_i h
    simp only [Bool.or_eq_true, Bool.and_eq_true, decide_eq_true_eq, beq_iff_eq] at h
    right
    omega

theorem two_mul_roundTo_le (step n : Nat) : 2 * roundTo step n 1 ≤ 2 * n + step := by
  have hrest := Nat.mod_le n step
  rcases roundTo_cases step n with ⟨h, hhalf⟩ | ⟨h, hhalf⟩ <;> omega

theorem two_mul_le_roundTo (hstep : 0 < step) (n : Nat) :
    2 * n ≤ 2 * roundTo step n 1 + step := by
  have hrest := Nat.mod_lt n hstep
  rcases roundTo_cases step n with ⟨h, hhalf⟩ | ⟨h, hhalf⟩ <;> omega

theorem le_roundTo (hstep : 0 < step) (hdvd : step ∣ k) (h : k ≤ n) : k ≤ roundTo step n 1 := by
  apply Nat.le_of_lt_add_of_dvd _ hdvd (dvd_roundTo step n)
  have := two_mul_le_roundTo hstep n
  omega

theorem roundTo_le (hstep : 0 < step) (hdvd : step ∣ k) (h : n ≤ k) : roundTo step n 1 ≤ k := by
  apply Nat.le_of_lt_add_of_dvd _ (dvd_roundTo step n) hdvd
  have := two_mul_roundTo_le step n
  omega

theorem roundTo_le_roundTo (hstep : 0 < step) (h : m ≤ n) :
    roundTo step m 1 ≤ roundTo step n 1 := by
  rcases Nat.eq_or_lt_of_le h with rfl | h
  · exact Nat.le_refl _
  apply Nat.le_of_lt_add_of_dvd _ (dvd_roundTo step m) (dvd_roundTo step n)
  have hm := two_mul_roundTo_le step m
  have hn := two_mul_le_roundTo hstep n
  omega

end Step

/-! ## Rounding to fifty-three digits -/

section Rounded

variable {m n : Nat}

/-- A whole number of units rounded to the distance of its magnitude. -/
def rounded (n : Nat) : Nat := roundTo (spacing n) n 1

theorem log2_lt_iff {k : Nat} (hk : 0 < k) : n.log2 < k ↔ n < 1 <<< k := by
  rw [Nat.one_shiftLeft]
  rcases Nat.eq_zero_or_pos n with rfl | hn
  · exact iff_of_true hk (Nat.two_pow_pos k)
  · exact Nat.log2_lt (Nat.ne_of_gt hn)

theorem log2_le_log2 (h : m ≤ n) : m.log2 ≤ n.log2 := by
  apply Nat.le_of_lt_succ
  rw [log2_lt_iff (Nat.succ_pos _), Nat.one_shiftLeft]
  exact Nat.lt_of_le_of_lt h Nat.lt_log2_self

theorem spacing_pos (n : Nat) : 0 < spacing n := by
  rw [spacing, Nat.one_shiftLeft]
  exact Nat.two_pow_pos _

theorem spacing_dvd_one_shiftLeft {e : Nat} (h : n.log2 ≤ e) : spacing n ∣ 1 <<< e := by
  rw [spacing, Nat.one_shiftLeft, Nat.one_shiftLeft]
  exact Nat.pow_dvd_pow 2 (by omega)

theorem rounded_le_one_shiftLeft {e : Nat} (h : n ≤ 1 <<< e) : rounded n ≤ 1 <<< e := by
  have hlog : n.log2 ≤ e := by
    apply Nat.le_of_lt_succ
    rw [log2_lt_iff (Nat.succ_pos _)]
    refine Nat.lt_of_le_of_lt h ?_
    rw [Nat.one_shiftLeft, Nat.one_shiftLeft]
    exact Nat.pow_lt_pow_succ (by decide)
  exact roundTo_le (spacing_pos n) (spacing_dvd_one_shiftLeft hlog) h

theorem rounded_le_rounded (h : m ≤ n) : rounded m ≤ rounded n := by
  by_cases hlog : m.log2 = n.log2
  · have hspacing : spacing m = spacing n := by rw [spacing, spacing, hlog]
    rw [rounded, rounded, hspacing]
    exact roundTo_le_roundTo (spacing_pos n) h
  -- the power of two that `n` begins with lies between them
  have hlt : m.log2 < n.log2 := Nat.lt_of_le_of_ne (log2_le_log2 h) hlog
  have hm : m ≤ 1 <<< n.log2 := Nat.le_of_lt ((log2_lt_iff (by omega)).1 hlt)
  have hn : 1 <<< n.log2 ≤ n := by
    rw [Nat.one_shiftLeft]
    apply Nat.log2_self_le
    rintro rfl
    exact Nat.not_lt_zero _ hlt
  calc rounded m ≤ 1 <<< n.log2 := rounded_le_one_shiftLeft hm
    _ ≤ rounded n := le_roundTo (spacing_pos n) (spacing_dvd_one_shiftLeft (Nat.le_refl _)) hn

theorem rounded_eq_self (h : spacing n ∣ n) : rounded n = n :=
  Nat.le_antisymm (roundTo_le (spacing_pos n) h (Nat.le_refl n))
    (le_roundTo (spacing_pos n) h (Nat.le_refl n))

/-- A number that is above all magnitudes. -/
def bound : Nat := 1 <<< 2098

theorem isMagnitude_iff : isMagnitude n = true ↔ spacing n ∣ n ∧ n < bound := by
  rw [isMagnitude, Bool.and_eq_true, beq_iff_eq, decide_eq_true_iff, bound,
    log2_lt_iff (by decide), Nat.dvd_iff_mod_eq_zero]

theorem isMagnitude_rounded_iff : isMagnitude (rounded n) = true ↔ rounded n < bound := by
  have hdvd := spacing_dvd_roundTo n 1
  rw [Nat.div_one] at hdvd
  exact isMagnitude_iff.trans (and_iff_right hdvd)

end Rounded

/-! ## The order as that of integers -/

section Place

variable {x y : Double} {a b n : Int}

/-- The integer that stands for a double in the order. -/
def place : Double → Int
  | finite negative units _ => signed negative units
  | infinite negative => signed negative bound
  | nan => 0

theorem le_iff_place_le (hx : x ≠ nan) (hy : y ≠ nan) : x.le y = true ↔ x.place ≤ y.place := by
  cases x with
  | nan => exact absurd rfl hx
  | finite s a ha =>
    cases y with
    | nan => exact absurd rfl hy
    | finite t b hb => exact decide_eq_true_iff
    | infinite t =>
      have := (isMagnitude_iff.1 ha).2
      cases s <;> cases t <;> simp [le, place, signed] <;> omega
  | infinite s =>
    cases y with
    | nan => exact absurd rfl hy
    | finite t b hb =>
      have := (isMagnitude_iff.1 hb).2
      cases s <;> cases t <;> simp [le, place, signed] <;> omega
    | infinite t =>
      cases s <;> cases t <;> simp [le, place, signed, bound]

theorem lt_iff_place_lt (hx : x ≠ nan) (hy : y ≠ nan) : x.lt y = true ↔ x.place < y.place := by
  have hle := le_iff_place_le hx hy
  have hge := le_iff_place_le hy hx
  rw [lt, Bool.and_eq_true, Bool.not_eq_true', ← Bool.not_eq_true, hle, hge]
  omega

theorem ofInt_ne_nan (n : Int) : ofInt n ≠ nan := by
  unfold ofInt nearest
  dsimp only
  split <;> exact nofun

/-- Words are doubles, or near one. -/
theorem isFinite_ofInt (h : n.natAbs < UInt64.size) : (ofInt n).isFinite = true := by
  have hunits : n.natAbs * one ≤ 1 <<< 1138 := by
    calc n.natAbs * one ≤ UInt64.size * one := Nat.mul_le_mul_right one (Nat.le_of_lt h)
      _ = 1 <<< 1138 := by decide
  have hrounded : rounded (n.natAbs * one) < bound :=
    Nat.lt_of_le_of_lt (rounded_le_one_shiftLeft hunits) (by decide)
  unfold ofInt nearest
  dsimp only
  rw [Nat.div_one]
  exact congrArg isFinite (dif_pos (isMagnitude_rounded_iff.2 hrounded))

theorem place_ofInt (n : Int) :
    (ofInt n).place = signed (decide (n < 0)) (min (rounded (n.natAbs * one)) bound) := by
  unfold ofInt nearest
  dsimp only
  simp only [Nat.div_one]
  split
  · rename_i h
    have hlt : rounded (n.natAbs * one) < bound := (isMagnitude_iff.1 h).2
    rw [Nat.min_eq_left (Nat.le_of_lt hlt)]
    rfl
  · rename_i h
    have hge : bound ≤ rounded (n.natAbs * one) :=
      Nat.le_of_not_lt fun hlt => h (isMagnitude_rounded_iff.2 hlt)
    rw [Nat.min_eq_right hge]
    rfl

theorem place_ofInt_le_place_ofInt (h : a ≤ b) : (ofInt a).place ≤ (ofInt b).place := by
  rw [place_ofInt, place_ofInt]
  have hmono : ∀ {m n : Nat}, m ≤ n → rounded (m * one) ≤ rounded (n * one) :=
    fun h => rounded_le_rounded (Nat.mul_le_mul_right one h)
  by_cases ha : a < 0
  · by_cases hb : b < 0
    · have := hmono (show b.natAbs ≤ a.natAbs by omega)
      simp only [ha, hb, decide_true, signed, if_true]
      omega
    · simp only [ha, hb, decide_true, decide_false, signed, if_true, Bool.false_eq_true, if_false]
      omega
  · have hb : ¬b < 0 := by omega
    have := hmono (show a.natAbs ≤ b.natAbs by omega)
    simp only [ha, hb, decide_false, signed, Bool.false_eq_true, if_false]
    omega

/-- Integers of up to fifty-three binary digits are doubles. -/
theorem place_ofInt_of_natAbs_le (h : n.natAbs ≤ 2 ^ 53) : (ofInt n).place = n * one := by
  have hunits : n.natAbs * one = n.natAbs <<< 1074 := by
    rw [one, Nat.one_shiftLeft, Nat.shiftLeft_eq]
  have hexact : rounded (n.natAbs * one) = n.natAbs * one := by
    apply rounded_eq_self
    rw [hunits]
    exact spacing_dvd_shiftLeft h 1074
  have hlt : n.natAbs * one < bound :=
    Nat.lt_of_le_of_lt (Nat.mul_le_mul_right one h) (by decide)
  rw [place_ofInt, hexact, Nat.min_eq_left (Nat.le_of_lt hlt)]
  by_cases hn : n < 0
  · simp only [hn, decide_true, signed, if_true, Int.natCast_mul]
    rw [show (n.natAbs : Int) = -n by omega, Int.neg_mul, Int.neg_neg]
  · simp only [hn, decide_false, signed, Bool.false_eq_true, if_false, Int.natCast_mul]
    rw [show (n.natAbs : Int) = n by omega]

/-- Rounding keeps the order of integers. -/
theorem ofInt_le_ofInt (h : a ≤ b) : (ofInt a).le (ofInt b) = true :=
  (le_iff_place_le (ofInt_ne_nan a) (ofInt_ne_nan b)).2 (place_ofInt_le_place_ofInt h)

theorem place_ofInt_lt_place_ofInt (hsmall : a.natAbs < 2 ^ 53 ∨ b.natAbs < 2 ^ 53) (h : a < b) :
    (ofInt a).place < (ofInt b).place := by
  have hone : (0 : Int) < one := Int.natCast_pos.2 (by decide)
  -- the neighbour of the small one that lies towards the other is exact as well
  rcases hsmall with ha | hb
  · calc (ofInt a).place = a * one := place_ofInt_of_natAbs_le (Nat.le_of_lt ha)
      _ < (a + 1) * one := Int.mul_lt_mul_of_pos_right (by omega) hone
      _ = (ofInt (a + 1)).place := (place_ofInt_of_natAbs_le (by omega)).symm
      _ ≤ (ofInt b).place := place_ofInt_le_place_ofInt h
  · calc (ofInt a).place ≤ (ofInt (b - 1)).place := place_ofInt_le_place_ofInt (by omega)
      _ = (b - 1) * one := place_ofInt_of_natAbs_le (by omega)
      _ < b * one := Int.mul_lt_mul_of_pos_right (by omega) hone
      _ = (ofInt b).place := (place_ofInt_of_natAbs_le (Nat.le_of_lt hb)).symm

/-- Of two integers that the order of doubles does not tell apart both are large. -/
theorem ofInt_le_ofInt_iff (hsmall : a.natAbs < 2 ^ 53 ∨ b.natAbs < 2 ^ 53) :
    (ofInt a).le (ofInt b) = true ↔ a ≤ b := by
  refine ⟨fun h => ?_, ofInt_le_ofInt⟩
  apply Int.not_lt.1
  intro hlt
  have hplace := place_ofInt_lt_place_ofInt hsmall.symm hlt
  have := (le_iff_place_le (ofInt_ne_nan a) (ofInt_ne_nan b)).1 h
  omega

theorem ofInt_lt_ofInt_iff (hsmall : a.natAbs < 2 ^ 53 ∨ b.natAbs < 2 ^ 53) :
    (ofInt a).lt (ofInt b) = true ↔ a < b := by
  rw [lt, Bool.and_eq_true, Bool.not_eq_true', ← Bool.not_eq_true, ofInt_le_ofInt_iff hsmall,
    ofInt_le_ofInt_iff hsmall.symm]
  omega

/-- An integer whose double is below another's is below it. -/
theorem lt_of_ofInt_lt_ofInt (h : (ofInt a).lt (ofInt b) = true) : a < b := by
  apply Int.not_le.1
  intro hge
  have hplace := (lt_iff_place_lt (ofInt_ne_nan a) (ofInt_ne_nan b)).1 h
  have := place_ofInt_le_place_ofInt hge
  omega

end Place

end PathQuery.Number.Double
