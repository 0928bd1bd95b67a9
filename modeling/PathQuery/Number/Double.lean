/-!
# Double-precision numbers

A finite double is a sign and a whole number of units of `2^-1074`, the distance
between the smallest doubles, so that the order of doubles is the order of
integers and rounding is division with a remainder. `Double.nearest` rounds a
quotient, and `spacing_dvd_roundTo` says that what it rounds to is a double unless
it is too large.
-/

namespace PathQuery.Number

/-- The distance between neighbouring doubles of a magnitude of `units`: fifty-three binary
digits are kept. -/
def spacing (units : Nat) : Nat := 1 <<< (units.log2 - 52)

/-- Whether a number of units is the magnitude of a finite double. -/
def isMagnitude (units : Nat) : Bool := units % spacing units == 0 && units.log2 < 2098

/-- A double-precision number, with a signed zero and one undefined value. -/
inductive Double
  /-- The number `units * 2^-1074`, negated when the flag is set. -/
  | finite (negative : Bool) (units : Nat) (valid : isMagnitude units = true)
  | infinite (negative : Bool)
  | nan
  deriving DecidableEq

namespace Double

instance : Inhabited Double := ⟨nan⟩

/-! ## Rounding -/

/-- Units in the number one. -/
def one : Nat := 1 <<< 1074

def zero (negative : Bool) : Double := finite negative 0 (by decide)

/-- The multiple of `step` nearest to `num / den`, an even multiple if two are equally near. -/
def roundTo (step num den : Nat) : Nat :=
  let part := den * step
  let below := num / part
  let rest := num % part
  if part < 2 * rest || (part == 2 * rest && below % 2 == 1) then (below + 1) * step
  else below * step

/-- The double nearest to `num / den`, negated when the flag is set. -/
def nearest (negative : Bool) (num den : Nat) : Double :=
  let scaled := num * one
  let units := roundTo (spacing (scaled / den)) scaled den
  if h : isMagnitude units then finite negative units h else infinite negative

def ofInt (n : Int) : Double := nearest (decide (n < 0)) n.natAbs 1

/-- Fifty-three binary digits before zeros leave no rest at the distance of their magnitude. -/
theorem spacing_dvd_shiftLeft {k : Nat} (h : k ≤ 1 <<< 53) (s : Nat) :
    spacing (k <<< s) ∣ k <<< s := by
  rw [Nat.one_shiftLeft] at h
  rw [Nat.shiftLeft_eq]
  rcases Nat.eq_zero_or_pos k with rfl | hk
  · simp
  have hlog : (k * 2 ^ s).log2 = k.log2 + s := by
    rw [Nat.log2_eq_iff (Nat.ne_of_gt (Nat.mul_pos hk (Nat.two_pow_pos s))), Nat.pow_add,
      show k.log2 + s + 1 = k.log2 + 1 + s by omega, Nat.pow_add _ (k.log2 + 1)]
    exact ⟨Nat.mul_le_mul_right _ (Nat.log2_self_le (Nat.ne_of_gt hk)),
      Nat.mul_lt_mul_of_pos_right Nat.lt_log2_self (Nat.two_pow_pos s)⟩
  rw [spacing, Nat.one_shiftLeft, hlog]
  rcases Nat.lt_or_eq_of_le h with h | rfl
  · have : k.log2 < 53 := (Nat.log2_lt (Nat.ne_of_gt hk)).2 h
    exact Nat.dvd_trans (Nat.pow_dvd_pow 2 (by omega)) (Nat.dvd_mul_left _ k)
  · rw [← Nat.pow_add, Nat.log2_two_pow]
    exact Nat.pow_dvd_pow 2 (by omega)

/-- Counted in the distance of its magnitude, a number has fifty-three binary digits. -/
theorem div_spacing_lt (n : Nat) : n / spacing n < 1 <<< 53 := by
  rw [spacing, Nat.one_shiftLeft, Nat.one_shiftLeft, Nat.div_lt_iff_lt_mul (Nat.two_pow_pos _), ← Nat.pow_add]
  exact Nat.lt_of_lt_of_le Nat.lt_log2_self (Nat.pow_le_pow_right (by decide) (by omega))

/-- A quotient rounded at the distance of its magnitude leaves no rest at its own. -/
theorem spacing_dvd_roundTo (num den : Nat) :
    spacing (roundTo (spacing (num / den)) num den) ∣ roundTo (spacing (num / den)) num den := by
  have h : num / (den * spacing (num / den)) < 1 <<< 53 := by
    rw [← Nat.div_div_eq_div_mul]
    exact div_spacing_lt _
  have hshift : ∀ k, k * spacing (num / den) = k <<< ((num / den).log2 - 52) := fun k => by
    rw [spacing, Nat.one_shiftLeft, Nat.shiftLeft_eq]
  simp only [roundTo]
  split
  · rw [hshift]
    exact spacing_dvd_shiftLeft h _
  · rw [hshift]
    exact spacing_dvd_shiftLeft (Nat.le_of_lt h) _

/-! ## Powers of ten -/

/-- The units of a finite double without its sign. -/
def units : Double → Nat
  | finite _ units _ => units
  | _ => 0

/-- Units multiplied by the double of a power of ten, or divided by it. -/
def scale (negative : Bool) (units : Nat) (exponent : Int) : Double :=
  let power := (ofInt (Nat.pow 10 exponent.natAbs)).units
  if 0 ≤ exponent then nearest negative (units * power) (one * one)
  else nearest negative units power

/-- Units divided by `10^308` so many times, as long as something is left. -/
def scaleDown : Nat → Nat → Nat
  | 0, units => units
  | times + 1, units =>
    if units = 0 then 0 else scaleDown times (scale false units (-308)).units

/-- A whole number times a power of ten, rounded at every step, so that it can be a neighbour of
the nearest double. The greatest power that is a double is `10^308`. -/
def ofScaled (negative : Bool) (n : Nat) (exponent : Int) : Double :=
  let units := (ofInt n).units
  if units = 0 then zero negative
  else if 308 < exponent then infinite negative
  else
    let times := (-exponent - 1).toNat / 308
    scale negative (scaleDown times units) (exponent + 308 * times)

/-! ## Order -/

/-- Whether `x` is a number other than the infinities. -/
def isFinite : Double → Bool
  | finite _ _ _ => true
  | _ => false

/-- The signed number of units. -/
def signed (negative : Bool) (units : Nat) : Int := if negative then -units else units

/-- Whether `x ≤ y`; false when one of them is undefined. -/
def le : Double → Double → Bool
  | nan, _ => false
  | _, nan => false
  | infinite true, _ => true
  | _, infinite false => true
  | infinite false, _ => false
  | _, infinite true => false
  | finite s a _, finite t b _ => signed s a ≤ signed t b

/-- Whether `x < y`; false when one of them is undefined. -/
def lt (x y : Double) : Bool := le x y && !le y x

end Double

end PathQuery.Number
